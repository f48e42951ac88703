import SyntaxTree.Proofs.Origin.Class
import SyntaxTree.Proofs.Soundness.Construct

/-!
# Reading any phrase of a source

A reader may be given a phrase of a rule that it is not meant for. Then it may refuse
it, at any depth and in the middle of blocks, but the fault it ends with still lies in
the phrase, and the tally is restored as it is behind a reading that succeeds.
-/

namespace SyntaxTree

open Phrase

namespace Construct

/-- The words of what a construct is read as. -/
def words : (c : Construct) → c.Value → List String
  | program, x => Program.words x
  | classDecl, x => ClassDecl.words x
  | methodDecl, x => MethodDecl.words x
  | modifier, _ => []
  | block, x => Block.words x
  | statement, x => Stmt.words x
  | forClauses, x => ForClauses.words x
  | varDecl, x => VarDecl.words x
  | arrayDecl, x => ArrayDecl.words x
  | arrayInit, x => ArrayInit.words x
  | assignment, x => Assignment.words x
  | expr, x => Expr.words x

/-- Whatever phrase a reader is given, it keeps to it. -/
theorem keeps (c : Construct) (p : Phrase) : (c.read p).Keeps p fun x => p.Supplies (c.words x) :=
  match c with
  | program => Program.keeps p
  | classDecl => ClassDecl.keeps p
  | methodDecl => MethodDecl.keeps p
  | modifier => TallyReader.keeps_lift ((Modifier.confines p).mono fun _ _ => supplies_nil)
  | block => Block.keeps p
  | statement => Stmt.keeps p
  | forClauses => TallyReader.keeps_lift (ForClauses.confines p)
  | varDecl => TallyReader.keeps_lift (VarDecl.confines p)
  | arrayDecl => TallyReader.keeps_lift (ArrayDecl.confines p)
  | arrayInit => TallyReader.keeps_lift (ArrayInit.confines p)
  | assignment => TallyReader.keeps_lift (Assignment.confines p)
  | expr => TallyReader.keeps_lift (Expr.confines p)

end Construct

/-- Read a construct from a phrase of the source. A flaw is a fault of the source. -/
def Source.read (source : Source) (c : Construct) (p : Phrase) (tally : Tally) :
    Except Fault c.Value × Tally :=
  match (c.read p).run.run tally with
  | (.ok x, after) => (.ok x, after)
  | (.error error, after) => (.error (.malformed source.name error), after)

/-- Parsing reads a program from the phrase that the grammar leaves. -/
theorem Source.parse_eq_read {source : Source} {p : Phrase} {rest : List Phrase}
    (h : Rule.program.phrases source.text.toList = .ok (p :: rest)) (tally : Tally) :
    source.parse tally = source.read .program p tally := by
  unfold parse
  rw [h, read]
  dsimp only
  rcases run : (Program.ofPhrase p).run.run tally with ⟨_ | _, _⟩ <;>
    rw [show (Construct.program.read p).run.run tally = _ from run] <;> rfl

/-- What is listed among the phrases of a match is a stretch of the text, and so is all inside. -/
theorem Rule.listed_stand {r : Rule} {text : List Char} {ps : List Phrase} {p : Phrase}
    {around : Nat} (h : r.phrases text = .ok ps) (mem : (around, p) ∈ listingAll 0 ps) :
    p.StandsIn 0 text ∧ p.IsNested := by
  obtain ⟨outer, listed, inside⟩ := inside_of_mem_listingAll mem
  obtain ⟨stands, nested⟩ := Rule.phrases_stand h listed
  exact ⟨stands.trans (nested.within inside), nested.inside inside⟩

/-- Whatever phrase of whatever rule a construct is read from, as many blocks are open and as many
errors counted behind the reading as before it, and no fewer blocks were open at most. A fault has
the name of the source and lies between the first and the last byte of the phrase. -/
theorem reading_restores_tally {source : Source} {rule : Rule} {phrases : List Phrase}
    (matched : rule.phrases source.text.toList = .ok phrases) {around : Nat} {p : Phrase}
    (mem : (around, p) ∈ listingAll 0 phrases) (c : Construct) (before : Tally) :
    (source.read c p before).2.Restores before ∧
      ∀ fault, (source.read c p before).1 = .error fault →
        ∃ error, fault = .malformed source.name error ∧
          p.start ≤ error.start ∧ error.start + error.length ≤ p.stop := by
  obtain ⟨restored, stays⟩ := c.keeps p before
  rw [Source.read]
  rcases run : (c.read p).run.run before with ⟨error | x, after⟩ <;>
    rw [run] at restored stays
  · refine ⟨restored, fun fault same => ⟨error, (Except.error.inj same).symm, ?_⟩⟩
    obtain ⟨q, inside, start, length⟩ := stays
    obtain ⟨-, nested⟩ := Rule.listed_stand matched mem
    obtain ⟨lower, upper⟩ := (nested.within inside).bounds
    rw [start, length]
    exact ⟨lower, upper⟩
  · exact ⟨restored, fun fault same => by cases same⟩

/-- A type is no statement, so reading a block from what holds one is refused inside the block. -/
theorem reading_restores_tally_type :
    let source : Source := ⟨"A.java", "void"⟩
    let word := ['v', 'o', 'i', 'd']
    let p : Phrase := ⟨.returnType, 0, word, [⟨.voidType, 0, word, []⟩]⟩
    Rule.returnType.phrases source.text.toList = .ok [p] ∧
      ∃ error after, source.read .block p ⟨3, 3, 1⟩ = (.error (.malformed "A.java" error), after) ∧
        p.start ≤ error.start ∧ error.start + error.length ≤ p.stop ∧ after.depth = 3 := by
  intro source word p
  have text : source.text.toList = word := by decide
  have found : Rule.returnType.phrases word = .ok [p] := rfl
  have matched : Rule.returnType.phrases source.text.toList = .ok [p] :=
    (congrArg Rule.returnType.phrases text).trans found
  have mem : (0, p) ∈ listingAll 0 [p] := .head _
  obtain ⟨restored, lies⟩ := reading_restores_tally matched mem .block ⟨3, 3, 1⟩
  have refused : ∃ fault after, source.read .block p ⟨3, 3, 1⟩ = (.error fault, after) := by
    have stmt : Stmt.ofPhrase ⟨.voidType, 0, word, []⟩ =
        liftM (Phrase.refuseRule ⟨.voidType, 0, word, []⟩ : Except ShapeError Stmt) := by
      rw [Stmt.ofPhrase]
    have inner : p.inner = [⟨⟨.voidType, 0, word, []⟩, .head _⟩] := rfl
    rw [Source.read, Construct.read, Block.ofPhrase, inner, List.mapM_cons]
    dsimp only
    rw [stmt]
    exact ⟨_, _, rfl⟩
  obtain ⟨fault, after, run⟩ := refused
  rw [run] at restored lies
  obtain ⟨error, rfl, lower, upper⟩ := lies fault rfl
  exact ⟨matched, error, after, run, lower, upper, restored.depth⟩

end SyntaxTree
