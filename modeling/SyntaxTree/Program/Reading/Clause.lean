import SyntaxTree.Program.Reading.Expr

/-!
# Declarations, assignments and loop headers from phrases

The constructs between expressions and statements. None of them holds a block,
so reading them leaves no trace in a tally. A part that is asked for by its rule
may stand anywhere in the phrase, and of several the last one counts; a part
that is asked for by its position has to make up the right number.
-/

namespace SyntaxTree

namespace Declarator

def ofPhrase (p : Phrase) : Except ShapeError Declarator :=
  match p.children with
  | [] => p.refuse (.missing .declaredName)
  | [name] => .ok ⟨name.content, none⟩
  | name :: value :: _ => do
    let init ← Expr.ofPhrase value
    return ⟨name.content, some init⟩

end Declarator

namespace VarDecl

def ofPhrase (p : Phrase) : Except ShapeError VarDecl :=
  match p.children with
  | [] => p.refuse (.missing .variableType)
  | type :: rest => do
    let element ← DataType.ofPhrase type
    let declarators ← rest.mapM Declarator.ofPhrase
    if declarators.isEmpty then p.refuse (.missing .variableName)
    else return ⟨element, declarators⟩

end VarDecl

namespace ArrayDecl

/-- The parts of an array declaration that have been met. -/
structure Found where
  type : Option DataType
  name : Option String
  dims : Option Dims

def Found.add (found : Found) (part : Phrase) : Except ShapeError Found :=
  match part.rule with
  | .dataType => do
    let type ← DataType.ofPhrase part
    return { found with type := some type }
  | .ident => .ok { found with name := some part.content }
  | .dims => do
    let dims ← Dims.ofPhrase part
    return { found with dims := some dims }
  | _ => part.refuseRule

/-- The name may stand before or behind the dimensions. -/
def ofPhrase (p : Phrase) : Except ShapeError ArrayDecl := do
  let found ← p.children.foldlM Found.add ⟨none, none, none⟩
  let type ← p.require .arrayType found.type
  let name ← p.require .arrayName found.name
  let dims ← p.require .arrayDimensions found.dims
  return ⟨type, name, dims⟩

end ArrayDecl

namespace ArrayInitializer

def ofPhrase (p : Phrase) : Except ShapeError ArrayInitializer :=
  match p.rule with
  | .initList =>
    match p.children with
    | [] => p.refuse (.missing .initializerElement)
    | first :: rest => do
      let head ← Expr.ofPhrase first
      let tail ← rest.mapM Expr.ofPhrase
      return .list head tail
  | .newExpr => do
    let (type, dims) ← Expr.newOfPhrase p
    return .new type dims
  | _ => p.refuseRule

end ArrayInitializer

namespace ArrayInit

def ofPhrase (p : Phrase) : Except ShapeError ArrayInit :=
  match p.parts with
  | [declared, wrapped] => do
    let decl ← ArrayDecl.ofPhrase declared.phrase
    match wrapped.phrase.parts with
    | [value] =>
      let init ← ArrayInitializer.ofPhrase value.phrase
      return ⟨decl, init⟩
    | _ => wrapped.phrase.refuseCount 1
  | _ => p.refuseCount 2

end ArrayInit

namespace Assignment

/-- The operator is looked at before the two sides. -/
def ofPhrase (p : Phrase) : Except ShapeError Assignment :=
  match p.parts with
  | [place, symbol, expr] => do
    let op ← symbol.phrase.operator AssignOp.ofSymbol?
    let target ← Expr.placeOfPhrase place.phrase
    let value ← Expr.ofPhrase expr.phrase
    return ⟨target, op, value⟩
  | _ => p.refuseCount 3

end Assignment

namespace ForInit

def ofPhrase (p : Phrase) : Except ShapeError ForInit :=
  match p.parts with
  | [clause] =>
    match clause.phrase.rule with
    | .varDecl => do
      let decl ← VarDecl.ofPhrase clause.phrase
      return .declaration decl
    | .assignment => do
      let assigned ← Assignment.ofPhrase clause.phrase
      return .assignment assigned
    | _ => clause.phrase.refuseRule
  | _ => p.refuseCount 1

end ForInit

namespace ForUpdate

def ofPhrase (p : Phrase) : Except ShapeError ForUpdate :=
  match p.parts with
  | [clause] =>
    match clause.phrase.rule with
    | .incDec => do
      let step ← IncDec.ofPhrase clause.phrase
      return .incDec step
    | .assignment => do
      let assigned ← Assignment.ofPhrase clause.phrase
      return .assignment assigned
    | _ => clause.phrase.refuseRule
  | _ => p.refuseCount 1

end ForUpdate

namespace ForClauses

/-- Each of the eight headers names the clauses that it has, in their order. -/
def ofPhrase (p : Phrase) : Except ShapeError ForClauses :=
  match p.rule with
  | .forEmpty =>
    match p.parts with
    | [] => .ok ⟨none, none, none⟩
    | _ => p.refuseCount 0
  | .forInit =>
    match p.parts with
    | [first] => do
      let init ← ForInit.ofPhrase first.phrase
      return ⟨some init, none, none⟩
    | _ => p.refuseCount 1
  | .forCond =>
    match p.parts with
    | [second] => do
      let condition ← Expr.ofPhrase second.phrase
      return ⟨none, some condition, none⟩
    | _ => p.refuseCount 1
  | .forUpdate =>
    match p.parts with
    | [third] => do
      let update ← ForUpdate.ofPhrase third.phrase
      return ⟨none, none, some update⟩
    | _ => p.refuseCount 1
  | .forInitCond =>
    match p.parts with
    | [first, second] => do
      let init ← ForInit.ofPhrase first.phrase
      let condition ← Expr.ofPhrase second.phrase
      return ⟨some init, some condition, none⟩
    | _ => p.refuseCount 2
  | .forInitUpdate =>
    match p.parts with
    | [first, third] => do
      let init ← ForInit.ofPhrase first.phrase
      let update ← ForUpdate.ofPhrase third.phrase
      return ⟨some init, none, some update⟩
    | _ => p.refuseCount 2
  | .forCondUpdate =>
    match p.parts with
    | [second, third] => do
      let condition ← Expr.ofPhrase second.phrase
      let update ← ForUpdate.ofPhrase third.phrase
      return ⟨none, some condition, some update⟩
    | _ => p.refuseCount 2
  | .forInitCondUpdate =>
    match p.parts with
    | [first, second, third] => do
      let init ← ForInit.ofPhrase first.phrase
      let condition ← Expr.ofPhrase second.phrase
      let update ← ForUpdate.ofPhrase third.phrase
      return ⟨some init, some condition, some update⟩
    | _ => p.refuseCount 3
  | _ => p.refuseRule

end ForClauses

end SyntaxTree
