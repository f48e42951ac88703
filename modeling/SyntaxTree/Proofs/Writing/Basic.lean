import SyntaxTree.Program.Basic
import SyntaxTree.Proofs.Lexeme.Basic

/-!
# Writings of a program

A writing of a program is a sequence of lexemes that spells it out. Two things
are left to the writer. Expressions may stand in any number of parentheses, and
have to where an operator would otherwise take their parts away. And in the
declaration of an array the dimensions may stand before or behind the name.

An expression is written at a level, which says how tightly it has to hold
together there: 0 to 5 are the levels of the binary operators, loosest first, at
level 6 no operator may stand outside of parentheses, and level 7 is for places,
which are never put in parentheses.

Nothing here refers to the grammar, so the writings are a second account of the
language.
-/

namespace SyntaxTree

/-- How tightly a binary operator holds its operands together. -/
def BinaryOp.level : BinaryOp → Nat
  | or => 0
  | and => 1
  | eq | ne => 2
  | gt | lt | ge | le => 3
  | add | sub => 4
  | mul | div | mod => 5

/-- An increment or decrement of what the lexemes spell. -/
def IncDecOp.lexemes (op : IncDecOp) (fixity : Fixity) (operand : List Lexeme) : List Lexeme :=
  match fixity with
  | .before => op.symbol.toList :: operand
  | .after => operand ++ [op.symbol.toList]

/-- The dimensions of an array, each in brackets. -/
inductive Dims.Written : Dims → List Lexeme → Prop
  | nil : Written [] []
  | blank {rest : Dims} {ts : List Lexeme} (others : Written rest ts) :
      Written (none :: rest) ("[".toList :: "]".toList :: ts)
  | number {rest : Dims} {ts : List Lexeme} (text : String) (others : Written rest ts) :
      Written (some (.number text) :: rest) ("[".toList :: text.toList :: "]".toList :: ts)
  | ident {rest : Dims} {ts : List Lexeme} (name : String) (others : Written rest ts) :
      Written (some (.ident name) :: rest) ("[".toList :: name.toList :: "]".toList :: ts)

/-- An expression as it stands where a level is asked for. A left operand may be as loose as
its operator, a right operand may not. -/
inductive Expr.Written : Nat → Expr → List Lexeme → Prop
  | number {level : Nat} (text : String) (le : level ≤ 6) :
      Written level (.number text) [text.toList]
  | str {level : Nat} (text : String) (le : level ≤ 6) : Written level (.str text) [text.toList]
  | ident {level : Nat} (name : String) (le : level ≤ 7) :
      Written level (.ident name) [name.toList]
  | index {level : Nat} {base index : Expr} {ts us : List Lexeme} (le : level ≤ 7)
      (front : Written 7 base ts) (inside : Written 0 index us) :
      Written level (.index base index) (ts ++ "[".toList :: us ++ ["]".toList])
  | incDec {level : Nat} {op : IncDecOp} {fixity : Fixity} {operand : Expr} {ts : List Lexeme}
      (le : level ≤ 6) (place : Written 7 operand ts) :
      Written level (.incDec op fixity operand) (op.lexemes fixity ts)
  | new {level : Nat} {type : DataType} {dims : Dims} {ts : List Lexeme} (le : level ≤ 6)
      (sizes : Dims.Written dims ts) :
      Written level (.new type dims) ("new".toList :: type.keyword.toList :: ts)
  | binary {level : Nat} {op : BinaryOp} {lhs rhs : Expr} {ts us : List Lexeme}
      (le : level ≤ op.level) (left : Written op.level lhs ts)
      (right : Written (op.level + 1) rhs us) :
      Written level (.binary op lhs rhs) (ts ++ op.symbol.toList :: us)
  | enclosed {level : Nat} {e : Expr} {ts : List Lexeme} (le : level ≤ 6)
      (inside : Written 0 e ts) : Written level e ("(".toList :: ts ++ [")".toList])

/-- At least one item, with commas between them. -/
inductive WrittenList {α : Type} (item : α → List Lexeme → Prop) : List α → List Lexeme → Prop
  | last {a : α} {ts : List Lexeme} (first : item a ts) : WrittenList item [a] ts
  | more {a : α} {rest : List α} {ts us : List Lexeme} (first : item a ts)
      (others : WrittenList item rest us) : WrittenList item (a :: rest) (ts ++ ",".toList :: us)

/-- A part that may be absent. -/
def WrittenOption {α : Type} (part : α → List Lexeme → Prop) : Option α → List Lexeme → Prop
  | none, ts => ts = []
  | some a, ts => part a ts

def IncDec.Written (step : IncDec) (ts : List Lexeme) : Prop :=
  ∃ us, Expr.Written 7 step.operand us ∧ ts = step.op.lexemes step.fixity us

inductive Declarator.Written : Declarator → List Lexeme → Prop
  | bare (name : String) : Written ⟨name, none⟩ [name.toList]
  | init (name : String) {value : Expr} {ts : List Lexeme} (init : Expr.Written 0 value ts) :
      Written ⟨name, some value⟩ (name.toList :: "=".toList :: ts)

def VarDecl.Written (decl : VarDecl) (ts : List Lexeme) : Prop :=
  ∃ us, WrittenList Declarator.Written decl.declarators us ∧
    ts = decl.type.keyword.toList :: us

def ArrayDecl.Written (decl : ArrayDecl) (ts : List Lexeme) : Prop :=
  ∃ us, Dims.Written decl.dims us ∧
    (ts = decl.type.keyword.toList :: decl.name.toList :: us ∨
      ts = decl.type.keyword.toList :: us ++ [decl.name.toList])

inductive ArrayInitializer.Written : ArrayInitializer → List Lexeme → Prop
  | list {first : Expr} {rest : List Expr} {ts : List Lexeme}
      (elements : WrittenList (Expr.Written 0) (first :: rest) ts) :
      Written (.list first rest) ("\x7b".toList :: ts ++ ["\x7d".toList])
  | new (type : DataType) {dims : Dims} {ts : List Lexeme} (sizes : Dims.Written dims ts) :
      Written (.new type dims) ("new".toList :: type.keyword.toList :: ts)

def ArrayInit.Written (init : ArrayInit) (ts : List Lexeme) : Prop :=
  ∃ us vs, init.decl.Written us ∧ init.init.Written vs ∧ ts = us ++ "=".toList :: vs

def Assignment.Written (a : Assignment) (ts : List Lexeme) : Prop :=
  ∃ us vs, Expr.Written 7 a.target us ∧ Expr.Written 0 a.value vs ∧
    ts = us ++ a.op.symbol.toList :: vs

def ForInit.Written : ForInit → List Lexeme → Prop
  | .declaration decl, ts => decl.Written ts
  | .assignment a, ts => a.Written ts

def ForUpdate.Written : ForUpdate → List Lexeme → Prop
  | .incDec step, ts => step.Written ts
  | .assignment a, ts => a.Written ts

def ForClauses.Written (clauses : ForClauses) (ts : List Lexeme) : Prop :=
  ∃ us vs ws, WrittenOption ForInit.Written clauses.init us ∧
    WrittenOption (Expr.Written 0) clauses.condition vs ∧
    WrittenOption ForUpdate.Written clauses.update ws ∧
    ts = "(".toList :: us ++ ";".toList :: vs ++ ";".toList :: ws ++ [")".toList]

def Declaration.Written : Declaration → List Lexeme → Prop
  | .variable decl, ts => decl.Written ts
  | .array decl, ts => decl.Written ts

def Initialization.Written : Initialization → List Lexeme → Prop
  | .assign a, ts => a.Written ts
  | .array init, ts => init.Written ts

/-- A condition in parentheses. -/
def Expr.WrittenTest (condition : Expr) (ts : List Lexeme) : Prop :=
  ∃ us, Expr.Written 0 condition us ∧ ts = "(".toList :: us ++ [")".toList]

/-- The statements of a block in their order, without the braces around them. -/
inductive Block.Written : Block → List Lexeme → Prop
  | nil : Written [] []
  | declaration {decl : Declaration} {rest : Block} {ts us : List Lexeme} (first : decl.Written ts)
      (others : Written rest us) :
      Written (.declaration decl :: rest) (ts ++ ";".toList :: us)
  | initialization {init : Initialization} {rest : Block} {ts us : List Lexeme}
      (first : init.Written ts) (others : Written rest us) :
      Written (.initialization init :: rest) (ts ++ ";".toList :: us)
  | step {step : IncDec} {rest : Block} {ts us : List Lexeme} (first : step.Written ts)
      (others : Written rest us) : Written (.step step :: rest) (ts ++ ";".toList :: us)
  | ifThen {condition : Expr} {body rest : Block} {ts us vs : List Lexeme}
      (test : condition.WrittenTest ts) (inside : Written body us) (others : Written rest vs) :
      Written (.ifThen condition body :: rest)
        ("if".toList :: ts ++ "\x7b".toList :: us ++ "\x7d".toList :: vs)
  | ifElse {condition : Expr} {body alternative rest : Block} {ts us vs ws : List Lexeme}
      (test : condition.WrittenTest ts) (inside : Written body us)
      (inside' : Written alternative vs) (others : Written rest ws) :
      Written (.ifElse condition body alternative :: rest)
        ("if".toList :: ts ++ "\x7b".toList :: us ++ "\x7d".toList ::
          "else".toList :: "\x7b".toList :: vs ++ "\x7d".toList :: ws)
  | forLoop {clauses : ForClauses} {body rest : Block} {ts us vs : List Lexeme}
      (header : clauses.Written ts) (inside : Written body us) (others : Written rest vs) :
      Written (.forLoop clauses body :: rest)
        ("for".toList :: ts ++ "\x7b".toList :: us ++ "\x7d".toList :: vs)

def Modifier.lexemes (m : Modifier) : List Lexeme :=
  m.access.keyword.toList :: (m.qualifier.map fun q => q.keyword.toList).toList

def Parameter.lexemes (p : Parameter) : List Lexeme :=
  p.type.keyword.toList :: (if p.isArray then ["[".toList, "]".toList] else []) ++ [p.name.toList]

def MethodDecl.Written (method : MethodDecl) (ts : List Lexeme) : Prop :=
  ∃ us, Block.Written method.body us ∧
    ts = method.modifier.lexemes ++ method.returnType.keyword.toList :: "main".toList ::
      "(".toList :: method.parameter.lexemes ++ ")".toList :: "\x7b".toList :: us ++ ["\x7d".toList]

def ClassDecl.Written (decl : ClassDecl) (ts : List Lexeme) : Prop :=
  ∃ us, decl.method.Written us ∧
    ts = (decl.modifier.map Modifier.lexemes).getD [] ++ "class".toList :: decl.name.toList ::
      "\x7b".toList :: us ++ ["\x7d".toList]

def Program.Written (program : Program) (ts : List Lexeme) : Prop := program.root.Written ts

end SyntaxTree
