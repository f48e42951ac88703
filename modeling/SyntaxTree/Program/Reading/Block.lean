import SyntaxTree.Program.Reading.Clause
import SyntaxTree.Tally

/-!
# Blocks and statements from phrases

Reading a block opens it on the tally, reads its statements up to the first flaw,
and closes it again whether or not there was a flaw. So a tally has the same
number of open blocks before and after, on every path.
-/

namespace SyntaxTree

/-- Reading a construct that may hold blocks, which a tally follows. -/
abbrev TallyReader := ExceptT ShapeError (StateM Tally)

/-- Read the inside of a block. -/
def TallyReader.scoped {α : Type} (inside : TallyReader α) : TallyReader α :=
  ExceptT.mk fun before =>
    let (result, after) := inside.run.run before.enter
    (result, after.leave)

mutual

def Block.ofPhrase (p : Phrase) : TallyReader Block :=
  TallyReader.scoped (p.inner.mapM fun stmt => Stmt.ofPhrase stmt.phrase)
termination_by sizeOf p
decreasing_by exact stmt.sizeOf_lt

def Stmt.ofPhrase (p : Phrase) : TallyReader Stmt :=
  match p.rule with
  | .ifElseStmt =>
    match p.parts with
    | [test, first, second] => do
      let condition ← Expr.ofPhrase test.phrase
      let body ← Block.ofPhrase first.phrase
      let alternative ← Block.ofPhrase second.phrase
      return .ifElse condition body alternative
    | _ => p.refuseCount 3
  | .ifStmt =>
    match p.parts with
    | [test, first] => do
      let condition ← Expr.ofPhrase test.phrase
      let body ← Block.ofPhrase first.phrase
      return .ifThen condition body
    | _ => p.refuseCount 2
  | .forStmt =>
    match p.parts with
    | [header, first] => do
      let clauses ← ForClauses.ofPhrase header.phrase
      let body ← Block.ofPhrase first.phrase
      return .forLoop clauses body
    | _ => p.refuseCount 2
  | .declarationStmt =>
    match p.parts with
    | [declared] =>
      match declared.phrase.rule with
      | .varDecl => do
        let decl ← VarDecl.ofPhrase declared.phrase
        return .declaration (.variable decl)
      | .arrayDecl => do
        let decl ← ArrayDecl.ofPhrase declared.phrase
        return .declaration (.array decl)
      | _ => declared.phrase.refuseRule
    | _ => p.refuseCount 1
  | .initializationStmt =>
    match p.parts with
    | [assigned] =>
      match assigned.phrase.rule with
      | .assignment => do
        let assignment ← Assignment.ofPhrase assigned.phrase
        return .initialization (.assign assignment)
      | .arrayInit => do
        let init ← ArrayInit.ofPhrase assigned.phrase
        return .initialization (.array init)
      | _ => assigned.phrase.refuseRule
    | _ => p.refuseCount 1
  | .expressionStmt =>
    match p.parts with
    | [stepped] => do
      let step ← IncDec.ofPhrase stepped.phrase
      return .step step
    | _ => p.refuseCount 1
  | _ => p.refuseRule
termination_by sizeOf p
decreasing_by
  all_goals first
    | exact first.sizeOf_lt
    | exact second.sizeOf_lt

end

end SyntaxTree
