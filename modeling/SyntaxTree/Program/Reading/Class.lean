import SyntaxTree.Program.Reading.Block

/-!
# Programs, classes and methods from phrases
-/

namespace SyntaxTree

namespace Modifier

/-- The words of a modifier that have been met. -/
structure Found where
  access : Option Access
  qualifier : Option Qualifier

def Found.add (found : Found) (part : Phrase) : Except ShapeError Found :=
  match part.rule, Access.ofKeyword? part.content, Qualifier.ofKeyword? part.content with
  | .access, some access, _ => .ok { found with access := some access }
  | .qualifier, _, some qualifier => .ok { found with qualifier := some qualifier }
  | _, _, _ => part.refuseRule

def ofPhrase (p : Phrase) : Except ShapeError Modifier := do
  let found ← p.children.foldlM Found.add ⟨none, none⟩
  let access ← p.require .accessModifier found.access
  return ⟨access, found.qualifier⟩

end Modifier

/-- The type that a method returns, which alone may be void. -/
def DataType.returnOfPhrase (p : Phrase) : Except ShapeError DataType :=
  match p.parts with
  | [type] => DataType.ofPhrase type.phrase
  | _ => p.refuseCount 1

namespace Parameter

/-- The parts of a parameter that have been met. -/
structure Found where
  type : Option DataType
  isArray : Bool
  name : Option String

def Found.add (found : Found) (part : Phrase) : Except ShapeError Found :=
  match part.rule with
  | .dataType => do
    let type ← DataType.ofPhrase part
    return { found with type := some type }
  | .arrayMarker => .ok { found with isArray := true }
  | .ident => .ok { found with name := some part.content }
  | _ => part.refuseRule

def ofPhrase (p : Phrase) : Except ShapeError Parameter := do
  let found ← p.children.foldlM Found.add ⟨none, false, none⟩
  let type ← p.require .parameterType found.type
  let name ← p.require .parameterName found.name
  return ⟨type, found.isArray, name⟩

end Parameter

namespace MethodDecl

def ofPhrase (p : Phrase) : TallyReader MethodDecl :=
  match p.parts with
  | [words, type, declared, statements] => do
    let modifier ← Modifier.ofPhrase words.phrase
    let returnType ← DataType.returnOfPhrase type.phrase
    let parameter ← Parameter.ofPhrase declared.phrase
    let body ← Block.ofPhrase statements.phrase
    return ⟨modifier, returnType, parameter, body⟩
  | _ => p.refuseCount 4

end MethodDecl

namespace ClassDecl

/-- The parts of a class that have been met. -/
structure Found where
  modifier : Option Modifier
  name : Option String
  method : Option MethodDecl

def Found.add (found : Found) (part : Phrase) : TallyReader Found :=
  match part.rule with
  | .modifier => do
    let modifier ← Modifier.ofPhrase part
    return { found with modifier := some modifier }
  | .ident => return { found with name := some part.content }
  | .methodDecl => do
    let method ← MethodDecl.ofPhrase part
    return { found with method := some method }
  | _ => part.refuseRule

def ofPhrase (p : Phrase) : TallyReader ClassDecl := do
  let found ← (p.parts.map Phrase.Child.phrase).foldlM Found.add ⟨none, none, none⟩
  let name ← p.require .className found.name
  let method ← p.require .methodDeclaration found.method
  return ⟨found.modifier, name, method⟩

end ClassDecl

namespace Program

/-- The first class in the phrase is the program. -/
def ofPhrase (p : Phrase) : TallyReader Program :=
  match p.children.find? fun part => part.rule == .classDecl with
  | some part => do
    let root ← ClassDecl.ofPhrase part
    return ⟨root⟩
  | none => p.refuse .noClass

end Program

end SyntaxTree
