import SyntaxTree.Grammar.Phrase
import SyntaxTree.Program.Operator

/-!
# Shapes of phrases

A construct is read from a phrase by its significant parts. A phrase that does
not have the parts of the construct is refused with the flaw and the stretch of
source where it lies.

A phrase whose rule belongs to the construct never has a flaw. The flaws answer
the question what happens when a construct is read from a phrase of another rule.
-/

namespace SyntaxTree

/-- The parts that a construct cannot do without. -/
inductive NeededPart where
  | className | methodDeclaration | accessModifier
  | dataType | parameterType | parameterName
  | variableType | variableName | declaredName
  | arrayType | arrayName | arrayDimensions | initializerElement
  | leftOperand | rightOperand | identifier
  deriving DecidableEq, Repr

def NeededPart.description : NeededPart → String
  | className => "class name"
  | methodDeclaration => "method declaration"
  | accessModifier => "access modifier"
  | dataType => "data type"
  | parameterType => "parameter type"
  | parameterName => "parameter name"
  | variableType => "variable type"
  | variableName => "variable name"
  | declaredName => "declared name"
  | arrayType => "array type"
  | arrayName => "array name"
  | arrayDimensions => "array dimensions"
  | initializerElement => "initializer element"
  | leftOperand => "left operand"
  | rightOperand => "right operand"
  | identifier => "identifier"

inductive Flaw where
  | missing (part : NeededPart)
  | partCount (rule : Rule) (wanted found : Nat)
  | unexpected (rule : Rule)
  | unknownOperator (text : String)
  | noClass
  | noPhrase
  deriving DecidableEq, Repr

def Flaw.description : Flaw → String
  | missing part => part.description
  | partCount rule wanted found =>
    rule.name ++ ": expected " ++ toString wanted ++ " parts, found " ++ toString found
  | unexpected rule => "construct: unexpected " ++ rule.name
  | unknownOperator text => SyntaxTree.unknownOperator text
  | noClass => "program without a class"
  | noPhrase => "empty parse result"

/-- A flaw and the bytes of the source where it lies. -/
structure ShapeError where
  flaw : Flaw
  start : Nat
  length : Nat
  deriving DecidableEq, Repr

namespace Phrase

variable {α : Type}

/-- Refuse a phrase for a flaw. -/
def refuse (p : Phrase) (flaw : Flaw) : Except ShapeError α :=
  .error ⟨flaw, p.start, p.length⟩

/-- Refuse a phrase that does not have the wanted number of significant parts. -/
def refuseCount (p : Phrase) (wanted : Nat) : Except ShapeError α :=
  p.refuse (.partCount p.rule wanted p.parts.length)

def refuseRule (p : Phrase) : Except ShapeError α := p.refuse (.unexpected p.rule)

/-- A part that must have been found by now. -/
def require (p : Phrase) (part : NeededPart) : Option α → Except ShapeError α
  | some found => .ok found
  | none => p.refuse (.missing part)

/-- The operator that a phrase spells. -/
def operator (p : Phrase) (ofSymbol? : String → Option α) : Except ShapeError α :=
  match ofSymbol? p.content with
  | some op => .ok op
  | none => p.refuse (.unknownOperator p.content)

end Phrase

end SyntaxTree
