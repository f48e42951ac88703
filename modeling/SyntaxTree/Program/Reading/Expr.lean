import SyntaxTree.Program.Basic
import SyntaxTree.Program.Shape

/-!
# Expressions from phrases

An expression is read from a level of the ladder, a literal, a place, an
increment or decrement, or a new array. A level with several operands groups
them to the left. Parentheses leave no phrase of their own, so a level inside
another one is read like any operand.
-/

namespace SyntaxTree

def DataType.ofPhrase (p : Phrase) : Except ShapeError DataType :=
  p.require .dataType (ofKeyword? p.content)

/-- Join operands to the left by the operators that stand between them. -/
def Expr.joinOperands {p : Phrase} (read : p.Child → Except ShapeError Expr) (lhs : Expr) :
    List p.Child → Except ShapeError Expr
  | [] => .ok lhs
  | [op] => do
    let _ ← op.phrase.operator BinaryOp.ofSymbol?
    op.phrase.refuse (.missing .rightOperand)
  | op :: operand :: rest => do
    let symbol ← op.phrase.operator BinaryOp.ofSymbol?
    let rhs ← read operand
    joinOperands read (.binary symbol lhs rhs) rest

mutual

def Expr.ofPhrase (p : Phrase) : Except ShapeError Expr :=
  match p.rule with
  | .logicalOr | .logicalAnd | .equality | .relational | .additive | .multiplicative =>
    match p.inner with
    | [] => p.refuse (.missing .leftOperand)
    | first :: rest => do
      let lhs ← Expr.ofPhrase first.phrase
      Expr.joinOperands (fun operand => Expr.ofPhrase operand.phrase) lhs rest
  | .number => .ok (.number p.content)
  | .ident => .ok (.ident p.content)
  | .string => .ok (.str p.content)
  | .place => Expr.placeOfPhrase p
  | .incDec => do
    let step ← IncDec.ofPhrase p
    return step.toExpr
  | .newExpr => do
    let (type, dims) ← Expr.newOfPhrase p
    return .new type dims
  | _ => p.refuseRule
termination_by 2 * sizeOf p + 1
decreasing_by
  · have := first.sizeOf_lt
    omega
  · have := operand.sizeOf_lt
    omega
  all_goals omega

/-- A name with its indices, each of which applies to all before it. -/
def Expr.placeOfPhrase (p : Phrase) : Except ShapeError Expr :=
  match p.inner with
  | [] => p.refuse (.missing .identifier)
  | name :: indices =>
    indices.foldlM (fun base suffix =>
      match suffix.phrase.parts with
      | [value] => do
        let index ← Expr.ofPhrase value.phrase
        return .index base index
      | _ => suffix.phrase.refuseCount 1) (.ident name.phrase.content)
termination_by 2 * sizeOf p
decreasing_by
  have := value.sizeOf_lt
  have := suffix.sizeOf_lt
  omega

def IncDec.ofPhrase (p : Phrase) : Except ShapeError IncDec :=
  match p.parts with
  | [form] => do
    let fixity ← match form.phrase.rule with
      | .prefixIncDec => .ok Fixity.before
      | .postfixIncDec => .ok Fixity.after
      | _ => form.phrase.refuseRule
    match form.phrase.parts with
    | [first, second] =>
      let (op, operand) := match fixity with
        | .before => (first, second)
        | .after => (second, first)
      let symbol ← op.phrase.operator IncDecOp.ofSymbol?
      let place ← Expr.placeOfPhrase operand.phrase
      return ⟨symbol, fixity, place⟩
    | _ => form.phrase.refuseCount 2
  | _ => p.refuseCount 1
termination_by 2 * sizeOf p
decreasing_by
  have := operand.sizeOf_lt
  have := form.sizeOf_lt
  omega

/-- The element type and the dimensions of a new array. -/
def Expr.newOfPhrase (p : Phrase) : Except ShapeError (DataType × Dims) :=
  match p.parts with
  | [type, dims] => do
    let element ← DataType.ofPhrase type.phrase
    let sizes ← Dims.ofPhrase dims.phrase
    return (element, sizes)
  | _ => p.refuseCount 2
termination_by 2 * sizeOf p
decreasing_by
  have := dims.sizeOf_lt
  omega

/-- A bracket with nothing in it is a dimension without a size. -/
def Dims.ofPhrase (p : Phrase) : Except ShapeError Dims :=
  p.inner.mapM fun dim =>
    match dim.phrase.inner with
    | [] => .ok none
    | size :: _ => do
      let value ← Expr.ofPhrase size.phrase
      return some value
termination_by 2 * sizeOf p
decreasing_by
  have := size.sizeOf_lt
  have := dim.sizeOf_lt
  omega

end

end SyntaxTree
