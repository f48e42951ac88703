import SyntaxTree.Program.Reading.Class
import SyntaxTree.Proofs.Origin.Clause

/-!
# Blocks, methods and classes keep to their phrase

A block is closed behind its statements whether or not one of them is refused, so by
induction on the phrase a tally is restored on every path.
-/

namespace SyntaxTree

open Phrase TallyReader

variable {p : Phrase}

theorem Phrase.supplies_block {block : Block} (h : ∀ stmt ∈ block, p.Supplies stmt.words) :
    p.Supplies (Block.words block) := by
  induction block with
  | nil => exact supplies_nil
  | cons stmt rest ih =>
    rw [List.forall_mem_cons] at h
    exact supplies_append.mpr ⟨h.1, ih h.2⟩

mutual

theorem Block.keeps (p : Phrase) :
    (Block.ofPhrase p).Keeps p fun block => p.Supplies (Block.words block) := by
  rw [Block.ofPhrase]
  refine Keeps.scoped (Keeps.mono ((keeps_compositional p).mapM fun stmt _ => ?_) fun _ =>
    supplies_block)
  exact (Stmt.keeps stmt.phrase).around stmt.inside
termination_by sizeOf p
decreasing_by exact stmt.sizeOf_lt

theorem Stmt.keeps (p : Phrase) : (Stmt.ofPhrase p).Keeps p fun stmt => p.Supplies stmt.words := by
  have condition (c : p.Child) :
      Keeps (liftM (Expr.ofPhrase c.phrase)) p fun e => p.Supplies e.words :=
    keeps_lift ((Expr.confines c.phrase).around c.inside)
  have body (c : p.Child) :
      (Block.ofPhrase c.phrase).Keeps p fun block => p.Supplies (Block.words block) :=
    (Block.keeps c.phrase).around c.inside
  rw [Stmt.ofPhrase]
  split
  · split
    · rename_i test first second _
      refine (condition test).bind fun e h => ?_
      refine (body first).bind fun block h' => (body second).bind fun block' h'' => ?_
      exact keeps_pure (supplies_append.mpr ⟨supplies_append.mpr ⟨h, h'⟩, h''⟩)
    · exact keeps_refuse .here
  · split
    · rename_i test first _
      refine (condition test).bind fun e h => (body first).bind fun block h' => ?_
      exact keeps_pure (supplies_append.mpr ⟨h, h'⟩)
    · exact keeps_refuse .here
  · split
    · rename_i header first _
      have clauses := keeps_lift ((ForClauses.confines header.phrase).around header.inside)
      refine clauses.bind fun clauses h => (body first).bind fun block h' => ?_
      exact keeps_pure (supplies_append.mpr ⟨h, h'⟩)
    · exact keeps_refuse .here
  · split
    · rename_i declared _
      split
      · have decl := keeps_lift ((VarDecl.confines declared.phrase).around declared.inside)
        exact decl.bind fun decl h => keeps_pure h
      · have decl := keeps_lift ((ArrayDecl.confines declared.phrase).around declared.inside)
        exact decl.bind fun decl h => keeps_pure h
      · exact keeps_refuse declared.inside
    · exact keeps_refuse .here
  · split
    · rename_i assigned _
      split
      · have a := keeps_lift ((Assignment.confines assigned.phrase).around assigned.inside)
        exact a.bind fun a h => keeps_pure h
      · have init := keeps_lift ((ArrayInit.confines assigned.phrase).around assigned.inside)
        exact init.bind fun init h => keeps_pure h
      · exact keeps_refuse assigned.inside
    · exact keeps_refuse .here
  · split
    · rename_i stepped _
      have step := keeps_lift ((IncDec.confines stepped.phrase).around stepped.inside)
      exact step.bind fun step h => keeps_pure h
    · exact keeps_refuse .here
  · exact keeps_refuse .here
termination_by sizeOf p
decreasing_by exact c.sizeOf_lt

end

theorem Modifier.confines (p : Phrase) :
    p.Confines (Modifier.ofPhrase p) fun _ => True := by
  rw [Modifier.ofPhrase]
  have add (found : Found) (_ : True) (part : Phrase) (mem : part ∈ p.children) :
      p.Confines (found.add part) fun _ => True := by
    rw [Found.add]
    split
    · trivial
    · trivial
    · exact confines_refuse (inside_of_mem mem)
  refine (p.confines_compositional.foldlM trivial add).bind (Q := fun _ => True) fun found _ => ?_
  exact (confines_require fun _ _ => trivial).bind (Q := fun _ => True) fun _ _ => trivial

theorem DataType.confines_return (p : Phrase) :
    p.Confines (DataType.returnOfPhrase p) fun _ => True := by
  rw [DataType.returnOfPhrase]
  split
  · rename_i type _
    exact (DataType.confines type.phrase).widen type.inside
  · exact confines_refuse .here

namespace Parameter

def Found.words (found : Found) : List String := optionWords (fun name => [name]) found.name

theorem Found.confines_add {part : Phrase} (inside : part.Inside p) (found : Found)
    (known : p.Supplies found.words) :
    p.Confines (found.add part) fun next => p.Supplies next.words := by
  rw [add]
  split
  · exact ((DataType.confines part).widen inside).bind fun type _ => known
  · exact known
  · exact supplies_content inside
  · exact confines_refuse inside

theorem confines (p : Phrase) :
    p.Confines (Parameter.ofPhrase p) fun parameter => p.Supplies parameter.words := by
  rw [Parameter.ofPhrase]
  refine Confines.bind (p.confines_compositional.foldlM (Q := fun found : Found =>
    p.Supplies found.words) supplies_nil fun found known part mem =>
    Found.confines_add (inside_of_mem mem) found known) fun found known => ?_
  refine (confines_require fun _ _ => trivial).bind (Q := fun _ => True) fun type _ => ?_
  exact (confines_required known).bind fun name h => h

end Parameter

theorem MethodDecl.keeps (p : Phrase) :
    (MethodDecl.ofPhrase p).Keeps p fun method => p.Supplies method.words := by
  rw [MethodDecl.ofPhrase]
  split
  · rename_i words type declared statements _
    have modifier := keeps_lift ((Modifier.confines words.phrase).widen words.inside)
    have returnType := keeps_lift ((DataType.confines_return type.phrase).widen type.inside)
    have parameter := keeps_lift ((Parameter.confines declared.phrase).around declared.inside)
    have body := (Block.keeps statements.phrase).around statements.inside
    refine modifier.bind fun _ _ => returnType.bind fun _ _ => ?_
    refine parameter.bind fun _ h => body.bind fun _ h' => ?_
    exact keeps_pure (supplies_append.mpr ⟨h, h'⟩)
  · exact keeps_refuse .here

namespace ClassDecl

def Found.words (found : Found) : List String :=
  optionWords (fun name => [name]) found.name ++ optionWords MethodDecl.words found.method

theorem Found.keeps_add {part : Phrase} (inside : part.Inside p) (found : Found)
    (known : p.Supplies found.words) :
    (found.add part).Keeps p fun next => p.Supplies next.words := by
  rw [words, supplies_append] at known
  rw [add]
  split
  · have modifier := keeps_lift ((Modifier.confines part).widen inside)
    exact modifier.bind fun _ _ => keeps_pure (supplies_append.mpr known)
  · exact keeps_pure (supplies_append.mpr ⟨supplies_content inside, known.2⟩)
  · refine ((MethodDecl.keeps part).around inside).bind fun method h => ?_
    exact keeps_pure (supplies_append.mpr ⟨known.1, h⟩)
  · exact keeps_refuse inside

theorem keeps (p : Phrase) : (ClassDecl.ofPhrase p).Keeps p fun decl => p.Supplies decl.words := by
  rw [ClassDecl.ofPhrase]
  refine Keeps.bind ((keeps_compositional p).foldlM (Q := fun found : Found =>
    p.Supplies found.words) supplies_nil fun found known part mem => ?_) fun found known => ?_
  · obtain ⟨c, -, rfl⟩ := List.mem_map.mp mem
    exact Found.keeps_add c.inside found known
  · rw [Found.words, supplies_append] at known
    have name : Keeps (liftM (p.require .className found.name)) p fun name => p.Supplies [name] :=
      keeps_lift (confines_required known.1)
    have method : Keeps (liftM (p.require .methodDeclaration found.method)) p
        fun method => p.Supplies method.words := keeps_lift (confines_required known.2)
    exact name.bind fun _ h => method.bind fun _ h' => keeps_pure (h.cons h')

end ClassDecl

theorem Program.keeps (p : Phrase) :
    (Program.ofPhrase p).Keeps p fun program => p.Supplies program.words := by
  rw [Program.ofPhrase]
  split
  · rename_i part found
    have inside : part.Inside p := inside_of_mem (List.mem_of_find?_eq_some found)
    exact ((ClassDecl.keeps part).around inside).bind fun root h => keeps_pure h
  · exact keeps_refuse .here

end SyntaxTree
