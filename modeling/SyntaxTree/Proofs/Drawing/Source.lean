import SyntaxTree.Program.Diagram
import SyntaxTree.Proofs.Acceptance.Source
import SyntaxTree.Proofs.Drawing.Rows

/-!
# The drawing determines the diagram

Labels are fixed words and operators, and names and numbers hold no line feeds. So
the diagram of every accepted source is legible, and two accepted sources that are
drawn alike have the same diagram.
-/

namespace SyntaxTree

open Lexeme
open Diagram (isLegible isLegibleAll isLeafLabel isBranchLabel isValueOf leaf ofSlots slotCount)

namespace Lexeme

variable {t : Lexeme}

theorem feed_not_mem_of_isName (h : isName t = true) : '\n' ∉ t := by
  simp only [isName, Bool.and_eq_true] at h
  exact fun mem => absurd (List.all_eq_true.mp h.1.1 '\n' mem) (by decide)

theorem feed_not_mem_of_number (h : number? t = some t) : '\n' ∉ t := by
  obtain ⟨digits, rest, -, same, -, run, -⟩ := number?_eq_some h
  have feed {cs : List Char} (run : cs.all Char.isDigit = true) : '\n' ∉ cs :=
    fun mem => absurd (List.all_eq_true.mp run '\n' mem) (by decide)
  rw [same, List.mem_append, not_or]
  refine ⟨feed run, ?_⟩
  rcases fraction_cases rest with none | ⟨d, rest, -, digit, some⟩
  · simp [none]
  · have behind : (d :: rest.takeWhile Char.isDigit).all Char.isDigit = true := by
      rw [List.all_cons, digit, List.all_takeWhile]
      rfl
    simpa [some] using feed behind

end Lexeme

namespace Diagram

theorem isLegibleAll_eq_all (ds : List Diagram) : isLegibleAll ds = ds.all isLegible := by
  induction ds with
  | nil => rfl
  | cons d rest ih => rw [isLegibleAll, ih, List.all_cons]

/-- A branch is legible if its slots are. -/
theorem isLegible_ofSlots {label : String} {slots : List (Option Diagram)}
    (labelled : isBranchLabel label = true)
    (each : slots.all (fun slot => slot.all isLegible) = true) :
    (ofSlots label slots).isLegible = true := by
  rw [ofSlots, isLegible, labelled, isLegibleAll_eq_all, Bool.true_and, List.all_eq_true]
  intro d mem
  obtain ⟨slot, inside, rfl⟩ := List.mem_filterMap.mp mem
  simpa using List.all_eq_true.mp each _ (List.mem_of_mem_take inside)

theorem isLegible_leaf {label value : String} (labelled : isLeafLabel label = true)
    (other : label ≠ "string") (plain : '\n' ∉ value.toList) :
    (leaf label value).isLegible = true := by
  simp [isLegible, labelled, isValueOf, other, plain]

theorem isLegible_id {name : String} (h : isName name.toList = true) :
    (leaf "id" name).isLegible = true :=
  isLegible_leaf (by decide) (by decide) (feed_not_mem_of_isName h)

end Diagram

open Diagram (isLegible_ofSlots isLegible_leaf isLegible_id)

theorem DataType.isLegible_toDiagram (type : DataType) : type.toDiagram.isLegible = true := by
  cases type <;> exact isLegible_leaf (by decide) (by decide) (by decide)

theorem BinaryOp.isBranchLabel_symbol (op : BinaryOp) : isBranchLabel op.symbol = true := by
  cases op <;> decide

theorem AssignOp.isBranchLabel_symbol (op : AssignOp) : isBranchLabel op.symbol = true := by
  cases op <;> decide

theorem IncDecOp.isLegible_diagram (op : IncDecOp) (fixity : Fixity) {operand : Diagram}
    (h : operand.isLegible = true) : (op.diagram fixity operand).isLegible = true := by
  have symbol : (leaf op.label op.symbol).isLegible = true := by
    cases op <;> exact isLegible_leaf (by decide) (by decide) (by decide)
  cases fixity <;> exact isLegible_ofSlots (by decide) (by simp [h, symbol])

namespace Expr

theorem isLegible_number {text : String} (h : number? text.toList = some text.toList) :
    (number text).toDiagram.isLegible = true :=
  isLegible_leaf (by decide) (by decide) (feed_not_mem_of_number h)

theorem isLegible_size {size : Expr} (h : isSize (some size) = true) :
    size.toDiagram.isLegible = true := by
  cases size with
  | number text => exact isLegible_number (eq_of_beq h)
  | ident name => exact isLegible_id h
  | _ => cases h

end Expr

theorem Dims.isLegible_toDiagram? {dims : Dims} (sound : dims.all Expr.isSize = true) :
    (toDiagram? dims).all isLegible = true := by
  induction dims with
  | nil => rfl
  | cons dim rest ih =>
    rw [List.all_cons, Bool.and_eq_true] at sound
    have inner := ih sound.2
    cases dim with
    | none =>
      cases found : toDiagram? rest with
      | none =>
        have blank : (leaf "bracket" "[]").isLegible = true :=
          isLegible_leaf (by decide) (by decide) (by decide)
        simpa [toDiagram?, found] using blank
      | some d =>
        rw [found] at inner
        have nested : (ofSlots "bracket" [none, some d]).isLegible = true :=
          isLegible_ofSlots (by decide) (by simpa using inner)
        simpa [toDiagram?, found] using nested
    | some size =>
      have nested : (ofSlots "bracket" [some size.toDiagram, toDiagram? rest]).isLegible = true :=
        isLegible_ofSlots (by decide) (by simp [Expr.isLegible_size sound.1, inner])
      simpa [toDiagram?] using nested

theorem Expr.isLegible_toDiagram : ∀ {e : Expr}, e.isWellFormed = true →
    e.toDiagram.isLegible = true
  | .number text, sound => isLegible_number (eq_of_beq sound)
  | .ident name, sound => isLegible_id sound
  | .str text, sound => by
    rw [isWellFormed] at sound
    have labelled : isLeafLabel "string" = true := by decide
    simp [toDiagram, isLegible, labelled, isValueOf, Rule.takesAll_string, sound]
  | .binary op lhs rhs, sound => by
    rw [isWellFormed, Bool.and_eq_true] at sound
    exact isLegible_ofSlots op.isBranchLabel_symbol
      (by simp [isLegible_toDiagram sound.1, isLegible_toDiagram sound.2])
  | .index base inside, sound => by
    simp only [isWellFormed, Bool.and_eq_true] at sound
    exact isLegible_ofSlots (by decide)
      (by simp [isLegible_toDiagram sound.1.2, isLegible_toDiagram sound.2])
  | .new type dims, sound => by
    simp only [isWellFormed, Dims.isWellFormed, Bool.and_eq_true] at sound
    exact isLegible_ofSlots (by decide)
      (by simp [type.isLegible_toDiagram, Dims.isLegible_toDiagram? sound.2.2])
  | .incDec op fixity operand, sound => by
    simp only [isWellFormed, Bool.and_eq_true] at sound
    exact op.isLegible_diagram fixity (isLegible_toDiagram sound.2)

theorem IncDec.isLegible_toDiagram {step : IncDec} (sound : step.isWellFormed = true) :
    step.toDiagram.isLegible = true := by
  rw [isWellFormed, toExpr, Expr.isWellFormed, Bool.and_eq_true] at sound
  exact step.op.isLegible_diagram step.fixity (Expr.isLegible_toDiagram sound.2)

namespace Declarator

theorem isLegible_toDiagram {d : Declarator} (sound : d.isWellFormed = true) :
    d.toDiagram.isLegible = true := by
  obtain ⟨name, init⟩ := d
  rw [isWellFormed, Bool.and_eq_true] at sound
  cases init with
  | none => exact isLegible_id sound.1
  | some value =>
    exact isLegible_ofSlots (by decide)
      (by simp [isLegible_id sound.1, Expr.isLegible_toDiagram sound.2])

theorem isLegible_continued {ds : List Declarator} (sound : ds.all isWellFormed = true) :
    (continued ds).all isLegible = true := by
  induction ds with
  | nil => rfl
  | cons d rest ih =>
    rw [List.all_cons, Bool.and_eq_true] at sound
    have nested : (ofSlots "declaration continued"
        [some d.toDiagram, continued rest]).isLegible = true :=
      isLegible_ofSlots (by decide) (by simp [isLegible_toDiagram sound.1, ih sound.2])
    exact nested

end Declarator

theorem VarDecl.isLegible_toDiagram {decl : VarDecl} (sound : decl.isWellFormed = true) :
    decl.toDiagram.isLegible = true := by
  obtain ⟨type, declarators⟩ := decl
  simp only [isWellFormed, Bool.and_eq_true] at sound
  rcases declarators with _ | ⟨⟨name, init⟩, rest⟩
  · cases sound.1.2
  · simp only [List.all_cons, Bool.and_eq_true, Declarator.isWellFormed] at sound
    have continued := Declarator.isLegible_continued sound.2.2
    cases init with
    | none =>
      exact isLegible_ofSlots (by decide)
        (by simp [type.isLegible_toDiagram, isLegible_id sound.2.1.1, continued])
    | some value =>
      exact isLegible_ofSlots (by decide) (by simp [type.isLegible_toDiagram,
        isLegible_id sound.2.1.1, Expr.isLegible_toDiagram sound.2.1.2, continued])

theorem ArrayDecl.isLegible_toDiagram {decl : ArrayDecl} (sound : decl.isWellFormed = true) :
    decl.toDiagram.isLegible = true := by
  simp only [isWellFormed, Dims.isWellFormed, Bool.and_eq_true] at sound
  exact isLegible_ofSlots (by decide) (by simp [decl.type.isLegible_toDiagram,
    isLegible_id sound.1.2, Dims.isLegible_toDiagram? sound.2.2])

namespace ArrayInitializer

theorem isLegible_elements {first : Expr} {rest : List Expr} (sound : first.isWellFormed = true)
    (sound' : rest.all Expr.isWellFormed = true) : (elements first rest).isLegible = true := by
  induction rest generalizing first with
  | nil => exact Expr.isLegible_toDiagram sound
  | cons next rest ih =>
    rw [List.all_cons, Bool.and_eq_true] at sound'
    exact isLegible_ofSlots (by decide)
      (by simp [Expr.isLegible_toDiagram sound, ih sound'.1 sound'.2])

theorem isLegible_toDiagram {init : ArrayInitializer} (sound : init.isWellFormed = true) :
    init.toDiagram.isLegible = true := by
  cases init with
  | list first rest =>
    rw [isWellFormed, Bool.and_eq_true] at sound
    exact isLegible_elements sound.1 sound.2
  | new type dims => exact Expr.isLegible_toDiagram sound

end ArrayInitializer

theorem ArrayInit.isLegible_toDiagram {init : ArrayInit} (sound : init.isWellFormed = true) :
    init.toDiagram.isLegible = true := by
  rw [isWellFormed, Bool.and_eq_true] at sound
  exact isLegible_ofSlots (by decide) (by
    simp [ArrayDecl.isLegible_toDiagram sound.1, ArrayInitializer.isLegible_toDiagram sound.2])

theorem Assignment.isLegible_toDiagram {a : Assignment} (sound : a.isWellFormed = true) :
    a.toDiagram.isLegible = true := by
  simp only [isWellFormed, Bool.and_eq_true] at sound
  exact isLegible_ofSlots a.op.isBranchLabel_symbol
    (by simp [Expr.isLegible_toDiagram sound.1.2, Expr.isLegible_toDiagram sound.2])

theorem ForInit.isLegible_toDiagram {init : ForInit} (sound : init.isWellFormed = true) :
    init.toDiagram.isLegible = true := by
  cases init with
  | declaration decl => exact VarDecl.isLegible_toDiagram sound
  | assignment a => exact Assignment.isLegible_toDiagram sound

theorem ForUpdate.isLegible_toDiagram {update : ForUpdate} (sound : update.isWellFormed = true) :
    update.toDiagram.isLegible = true := by
  cases update with
  | incDec step => exact IncDec.isLegible_toDiagram sound
  | assignment a => exact Assignment.isLegible_toDiagram sound

/-- An absent part leaves nothing to read. -/
theorem isLegible_map {α : Type} {toDiagram : α → Diagram} {check : α → Bool} {part : Option α}
    (sound : part.all check = true) (each : ∀ a, check a = true → (toDiagram a).isLegible = true) :
    (part.map toDiagram).all isLegible = true := by
  cases part with
  | none => rfl
  | some a => exact each a sound

theorem ForClauses.isLegible_toDiagram {clauses : ForClauses}
    (sound : clauses.isWellFormed = true) : clauses.toDiagram.isLegible = true := by
  simp only [isWellFormed, Bool.and_eq_true] at sound
  have init := isLegible_map sound.1.1 fun _ => ForInit.isLegible_toDiagram
  have condition := isLegible_map sound.1.2 fun _ => Expr.isLegible_toDiagram
  have update := isLegible_map sound.2 fun _ => ForUpdate.isLegible_toDiagram
  refine isLegible_ofSlots (by decide) ?_
  rw [List.all_cons, List.all_cons, List.all_cons, init, condition, update]
  rfl

theorem Declaration.isLegible_toDiagram {decl : Declaration} (sound : decl.isWellFormed = true) :
    decl.toDiagram.isLegible = true := by
  rcases decl with decl | decl
  · exact isLegible_ofSlots (by decide) (by simp [VarDecl.isLegible_toDiagram sound])
  · exact isLegible_ofSlots (by decide) (by simp [ArrayDecl.isLegible_toDiagram sound])

theorem Initialization.isLegible_toDiagram {init : Initialization}
    (sound : init.isWellFormed = true) : init.toDiagram.isLegible = true := by
  rcases init with a | init
  · exact isLegible_ofSlots (by decide) (by simp [Assignment.isLegible_toDiagram sound])
  · exact isLegible_ofSlots (by decide) (by simp [ArrayInit.isLegible_toDiagram sound])

mutual

theorem Stmt.isLegible_toDiagram : ∀ {stmt : Stmt} {following : Option Diagram},
    stmt.isWellFormed = true → following.all isLegible = true →
      (stmt.toDiagram following).isLegible = true
  | .declaration decl, _, sound, behind =>
    isLegible_ofSlots (by decide) (by simp [decl.isLegible_toDiagram sound, behind])
  | .initialization init, _, sound, behind =>
    isLegible_ofSlots (by decide) (by simp [init.isLegible_toDiagram sound, behind])
  | .ifThen condition body, _, sound, behind => by
    rw [Stmt.isWellFormed, Bool.and_eq_true] at sound
    exact isLegible_ofSlots (by decide) (by simp [condition.isLegible_toDiagram sound.1,
      Block.isLegible_toDiagram? sound.2, behind])
  | .ifElse condition body alternative, _, sound, behind => by
    simp only [Stmt.isWellFormed, Bool.and_eq_true] at sound
    have test : (ofSlots "IF STATEMENT"
        [some condition.toDiagram, Block.toDiagram? body]).isLegible = true :=
      isLegible_ofSlots (by decide) (by simp [condition.isLegible_toDiagram sound.1.1,
        Block.isLegible_toDiagram? sound.1.2])
    have other : (ofSlots "ELSE STATEMENT" [Block.toDiagram? alternative]).isLegible = true :=
      isLegible_ofSlots (by decide) (by simp [Block.isLegible_toDiagram? sound.2])
    exact isLegible_ofSlots (by decide) (by simp [test, other, behind])
  | .forLoop clauses body, _, sound, behind => by
    rw [Stmt.isWellFormed, Bool.and_eq_true] at sound
    exact isLegible_ofSlots (by decide) (by simp [clauses.isLegible_toDiagram sound.1,
      Block.isLegible_toDiagram? sound.2, behind])
  | .step step, _, sound, behind =>
    isLegible_ofSlots (by decide) (by simp [step.isLegible_toDiagram sound, behind])

theorem Block.isLegible_toDiagram? : ∀ {b : List Stmt}, Block.isWellFormed b = true →
    (Block.toDiagram? b).all isLegible = true
  | [], _ => rfl
  | stmt :: rest, sound => by
    rw [Block.isWellFormed, Bool.and_eq_true] at sound
    exact Stmt.isLegible_toDiagram sound.1 (Block.isLegible_toDiagram? sound.2)

end

theorem Modifier.isLegible_toDiagram (m : Modifier) : m.toDiagram.isLegible = true := by
  obtain ⟨access, qualifier⟩ := m
  have first : (leaf "access modifier" access.keyword).isLegible = true := by
    cases access <;> exact isLegible_leaf (by decide) (by decide) (by decide)
  cases qualifier with
  | none => exact isLegible_ofSlots (by decide) (by simp [first])
  | some q =>
    have second : (leaf "access modifier" q.keyword).isLegible = true := by
      cases q <;> exact isLegible_leaf (by decide) (by decide) (by decide)
    exact isLegible_ofSlots (by decide) (by simp [first, second])

theorem Parameter.isLegible_toDiagram {p : Parameter} (sound : p.isWellFormed = true) :
    p.toDiagram.isLegible = true := by
  obtain ⟨type, isArray, name⟩ := p
  rw [isWellFormed, Bool.and_eq_true] at sound
  have typed : (leaf "datatype"
      (if isArray then type.keyword ++ "[]" else type.keyword)).isLegible = true := by
    cases isArray <;> cases type <;> exact isLegible_leaf (by decide) (by decide) (by decide)
  exact isLegible_ofSlots (by decide) (by simp [typed, isLegible_id sound.2])

theorem MethodDecl.isLegible_toDiagram {method : MethodDecl} (sound : method.isWellFormed = true) :
    method.toDiagram.isLegible = true := by
  rw [isWellFormed, Bool.and_eq_true] at sound
  exact isLegible_ofSlots (by decide) (by simp [method.modifier.isLegible_toDiagram,
    method.returnType.isLegible_toDiagram, Parameter.isLegible_toDiagram sound.1,
    Block.isLegible_toDiagram? sound.2])

/-- Every program that can be written has a legible diagram. -/
theorem Program.isLegible_toDiagram {program : Program} (sound : program.isWellFormed = true) :
    program.toDiagram.isLegible = true := by
  obtain ⟨modifier, name, method⟩ := program
  rw [isWellFormed, ClassDecl.isWellFormed, Bool.and_eq_true] at sound
  have named : (leaf "classname" name).isLegible = true :=
    isLegible_leaf (by decide) (by decide) (feed_not_mem_of_isName sound.1)
  have inside : method.toDiagram.isLegible = true := MethodDecl.isLegible_toDiagram sound.2
  cases modifier with
  | none => exact isLegible_ofSlots (by decide) (by simp [named, inside])
  | some m => exact isLegible_ofSlots (by decide) (by simp [m.isLegible_toDiagram, named, inside])

theorem Source.isLegible_of_parse {source : Source} {tally after : Tally} {program : Program}
    (h : source.parse tally = (.ok program, after)) : program.toDiagram.isLegible = true := by
  obtain ⟨ts, -, -, sound⟩ := Source.spells_of_parse h
  exact Program.isLegible_toDiagram sound

/-- Legible diagrams that are drawn alike are equal, and so are the diagrams of accepted sources
that are drawn alike. -/
theorem same_drawing_same_diagram :
    (∀ d d' : Diagram, d.isLegible = true → d'.isLegible = true → d.render = d'.render → d = d') ∧
      ∀ (source source' : Source) (tally tally' after after' : Tally) (program program' : Program),
        source.parse tally = (.ok program, after) → source'.parse tally' = (.ok program', after') →
          program.toDiagram.render = program'.toDiagram.render →
            program.toDiagram = program'.toDiagram := by
  constructor
  · intro d d' sound sound' same
    exact Diagram.eq_of_render sound sound' same
  · intro source source' tally tally' after after' program program' accepted accepted' same
    exact Diagram.eq_of_render (Source.isLegible_of_parse accepted)
      (Source.isLegible_of_parse accepted') same

/-- A string literal over two rows, the second of which looks like a child. -/
def Diagram.imitation : Diagram := leaf "string" "\"\\\n    └──(id, t)\""

theorem same_drawing_same_diagram_imitation :
    ofSlots "=" [none, some .imitation] = .branch "=" [.imitation] ∧
      ∃ program program' after after',
        (Source.assigning "(p+1)").parse .fresh = (.ok program, after) ∧
          (Source.assigning "p + 1").parse .fresh = (.ok program', after') ∧
            program.toDiagram = program'.toDiagram := by
  have alike : ofSlots "=" [none, some .imitation] = .branch "=" [.imitation] :=
    same_drawing_same_diagram.1 _ _ (by decide +kernel) (by decide +kernel) (by decide +kernel)
  refine ⟨alike, ?_⟩
  have drawn : ((Source.assigning "(p+1)").parse .fresh).1.toOption.map (fun program =>
      program.toDiagram.render) = ((Source.assigning "p + 1").parse .fresh).1.toOption.map
        (fun program => program.toDiagram.render) := by decide +kernel
  obtain ⟨program, after, run⟩ : ∃ program after, (Source.assigning "(p+1)").parse .fresh =
      (.ok program, after) := Source.exists_of_isOk (by decide +kernel)
  obtain ⟨program', after', run'⟩ : ∃ program after, (Source.assigning "p + 1").parse .fresh =
      (.ok program, after) := Source.exists_of_isOk (by decide +kernel)
  rw [run, run'] at drawn
  exact ⟨program, program', after, after', run, run',
    same_drawing_same_diagram.2 _ _ _ _ _ _ _ _ run run' (Option.some_inj.mp drawn)⟩

end SyntaxTree
