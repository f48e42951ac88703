import SyntaxTree.Program.Reading.Clause
import SyntaxTree.Proofs.Origin.Expr

/-!
# Declarations, assignments and loop headers keep to their phrase
-/

namespace SyntaxTree

open Phrase

variable {p : Phrase} {α : Type}

theorem Phrase.supplies_flatMap {words : α → List String} {items : List α}
    (h : ∀ x ∈ items, p.Supplies (words x)) : p.Supplies (items.flatMap words) := by
  intro w mem
  obtain ⟨x, item, word⟩ := List.mem_flatMap.mp mem
  exact h x item w word

/-- A part that was found is given with its words. -/
theorem Phrase.confines_required {words : α → List String} {part : NeededPart} {found : Option α}
    (h : p.Supplies (optionWords words found)) :
    p.Confines (p.require part found) fun x => p.Supplies (words x) := by
  refine confines_require fun x same => ?_
  rwa [same] at h

theorem Declarator.confines (p : Phrase) :
    p.Confines (Declarator.ofPhrase p) fun d => p.Supplies d.words := by
  rw [Declarator.ofPhrase]
  split
  · exact confines_refuse .here
  · rename_i name children
    have inside : name.Inside p := inside_of_mem (by simp [children])
    exact supplies_content inside
  · rename_i name value _ children
    have inside : name.Inside p := inside_of_mem (by simp [children])
    have inside' : value.Inside p := inside_of_mem (by simp [children])
    exact ((Expr.confines value).around inside').bind fun init h =>
      (supplies_content inside).cons h

theorem VarDecl.confines (p : Phrase) :
    p.Confines (VarDecl.ofPhrase p) fun decl => p.Supplies decl.words := by
  rw [VarDecl.ofPhrase]
  split
  · exact confines_refuse .here
  · rename_i type rest children
    have inside : type.Inside p := inside_of_mem (by simp [children])
    refine ((DataType.confines type).widen inside).bind fun element _ => ?_
    refine Confines.bind (p.confines_compositional.mapM fun item mem =>
      (Declarator.confines item).around (inside_of_mem (by simp [children, mem])))
      fun declarators each => ?_
    split
    · exact confines_refuse .here
    · exact supplies_flatMap each

namespace ArrayDecl

def Found.words (found : Found) : List String :=
  optionWords (fun name => [name]) found.name ++ optionWords Dims.words found.dims

theorem Found.confines_add {part : Phrase} (inside : part.Inside p) (found : Found)
    (known : p.Supplies found.words) :
    p.Confines (found.add part) fun next => p.Supplies next.words := by
  rw [words, supplies_append] at known
  rw [add]
  split
  · refine ((DataType.confines part).widen inside).bind fun type _ => ?_
    exact supplies_append.mpr known
  · exact supplies_append.mpr ⟨supplies_content inside, known.2⟩
  · refine ((Dims.confines part).around inside).bind fun dims h => ?_
    exact supplies_append.mpr ⟨known.1, h⟩
  · exact confines_refuse inside

theorem confines (p : Phrase) :
    p.Confines (ArrayDecl.ofPhrase p) fun decl => p.Supplies decl.words := by
  rw [ArrayDecl.ofPhrase]
  refine Confines.bind (p.confines_compositional.foldlM (Q := fun found : Found =>
    p.Supplies found.words) supplies_nil fun found known part mem =>
    Found.confines_add (inside_of_mem mem) found known) fun found known => ?_
  rw [Found.words, supplies_append] at known
  refine (confines_require fun _ _ => trivial).bind (Q := fun _ => True) fun type _ => ?_
  refine (confines_required known.1).bind fun name named => ?_
  exact (confines_required known.2).bind fun dims h => named.cons h

end ArrayDecl

theorem ArrayInitializer.confines (p : Phrase) :
    p.Confines (ArrayInitializer.ofPhrase p) fun init => p.Supplies init.words := by
  rw [ArrayInitializer.ofPhrase]
  split
  · split
    · exact confines_refuse .here
    · rename_i first rest children
      have inside : first.Inside p := inside_of_mem (by simp [children])
      refine ((Expr.confines first).around inside).bind fun head h => ?_
      refine Confines.bind (p.confines_compositional.mapM fun item mem =>
        (Expr.confines item).around (inside_of_mem (by simp [children, mem])))
        fun tail each => ?_
      exact supplies_append.mpr ⟨h, supplies_flatMap each⟩
  · exact (Expr.confines_new p).bind fun array h => h
  · exact confines_refuse .here

theorem ArrayInit.confines (p : Phrase) :
    p.Confines (ArrayInit.ofPhrase p) fun init => p.Supplies init.words := by
  rw [ArrayInit.ofPhrase]
  split
  · rename_i declared wrapped _
    refine ((ArrayDecl.confines declared.phrase).around declared.inside).bind fun decl known => ?_
    split
    · rename_i value _
      have inside : value.phrase.Inside p := wrapped.inside.trans value.inside
      exact ((ArrayInitializer.confines value.phrase).around inside).bind fun init h =>
        supplies_append.mpr ⟨known, h⟩
    · exact confines_refuse wrapped.inside
  · exact confines_refuse .here

theorem Assignment.confines (p : Phrase) :
    p.Confines (Assignment.ofPhrase p) fun a => p.Supplies a.words := by
  rw [Assignment.ofPhrase]
  split
  · rename_i place symbol expr _
    refine (confines_operator symbol.inside).bind fun op _ => ?_
    refine ((Expr.confines_place place.phrase).around place.inside).bind fun target h => ?_
    exact ((Expr.confines expr.phrase).around expr.inside).bind fun value h' =>
      supplies_append.mpr ⟨h, h'⟩
  · exact confines_refuse .here

theorem ForInit.confines (p : Phrase) :
    p.Confines (ForInit.ofPhrase p) fun init => p.Supplies init.words := by
  rw [ForInit.ofPhrase]
  split
  · rename_i clause _
    split
    · exact ((VarDecl.confines clause.phrase).around clause.inside).bind fun decl h => h
    · exact ((Assignment.confines clause.phrase).around clause.inside).bind fun assigned h => h
    · exact confines_refuse clause.inside
  · exact confines_refuse .here

theorem ForUpdate.confines (p : Phrase) :
    p.Confines (ForUpdate.ofPhrase p) fun update => p.Supplies update.words := by
  rw [ForUpdate.ofPhrase]
  split
  · rename_i clause _
    split
    · exact ((IncDec.confines clause.phrase).around clause.inside).bind fun step h => h
    · exact ((Assignment.confines clause.phrase).around clause.inside).bind fun assigned h => h
    · exact confines_refuse clause.inside
  · exact confines_refuse .here

theorem ForClauses.supplies_words {clauses : ForClauses}
    (init : p.Supplies (optionWords ForInit.words clauses.init))
    (condition : p.Supplies (optionWords Expr.words clauses.condition))
    (update : p.Supplies (optionWords ForUpdate.words clauses.update)) :
    p.Supplies clauses.words :=
  supplies_append.mpr ⟨supplies_append.mpr ⟨init, condition⟩, update⟩

theorem ForClauses.confines (p : Phrase) :
    p.Confines (ForClauses.ofPhrase p) fun clauses => p.Supplies clauses.words := by
  have init (c : p.Child) : p.Confines (ForInit.ofPhrase c.phrase) fun i => p.Supplies i.words :=
    (ForInit.confines c.phrase).around c.inside
  have condition (c : p.Child) :
      p.Confines (Expr.ofPhrase c.phrase) fun e => p.Supplies e.words :=
    (Expr.confines c.phrase).around c.inside
  have update (c : p.Child) :
      p.Confines (ForUpdate.ofPhrase c.phrase) fun u => p.Supplies u.words :=
    (ForUpdate.confines c.phrase).around c.inside
  have none : p.Supplies [] := supplies_nil
  rw [ForClauses.ofPhrase]
  split
  · split
    · exact none
    · exact confines_refuse .here
  · split
    · exact (init _).bind fun i h => supplies_words h none none
    · exact confines_refuse .here
  · split
    · exact (condition _).bind fun c h => supplies_words none h none
    · exact confines_refuse .here
  · split
    · exact (update _).bind fun u h => supplies_words none none h
    · exact confines_refuse .here
  · split
    · exact (init _).bind fun i h => (condition _).bind fun c h' => supplies_words h h' none
    · exact confines_refuse .here
  · split
    · exact (init _).bind fun i h => (update _).bind fun u h' => supplies_words h none h'
    · exact confines_refuse .here
  · split
    · exact (condition _).bind fun c h => (update _).bind fun u h' => supplies_words none h h'
    · exact confines_refuse .here
  · split
    · exact (init _).bind fun i h => (condition _).bind fun c h' => (update _).bind fun u h'' =>
        supplies_words h h' h''
    · exact confines_refuse .here
  · exact confines_refuse .here

end SyntaxTree
