import SyntaxTree.Proofs.Lowering.Leaves

/-!
# The leaves of a class are its parts in order

Declarations, headers, statements and at last the class follow the expressions,
each from what its fields give. The two lists that lean to the right in a way of
their own are the declarators, where the first one shares a node with the type, and
the statements, where what follows a statement hangs behind the statement's own
blocks. Their lemmas speak of the rest of the chain, and so go by induction on it.
-/

namespace SyntaxTree

open Diagram (leaf ofSlots leaves? leaves?_map leaves_ofSlots size? size?_map size_ofSlots slotCount)

/-! ## Declarations -/

namespace Declarator

theorem leaves_toDiagram (d : Declarator) : d.toDiagram.leaves = d.parts := by
  obtain ⟨name, init⟩ := d
  cases init with
  | none => simp [toDiagram, parts, optionParts]
  | some value =>
    simp [toDiagram, parts, optionParts, leaves_ofSlots, slotCount, value.leaves_toDiagram]

theorem leaves_continued (ds : List Declarator) :
    leaves? (continued ds) = ds.flatMap parts := by
  induction ds with
  | nil => rfl
  | cons d rest ih =>
    simp [continued, leaves_ofSlots, slotCount, d.leaves_toDiagram, ih]

theorem size_toDiagram (d : Declarator) : d.toDiagram.size = d.nodes := by
  obtain ⟨name, init⟩ := d
  cases init with
  | none => simp [toDiagram, nodes, optionNodes]
  | some value => simp [toDiagram, nodes, optionNodes, size_ofSlots, slotCount, value.size_toDiagram]

theorem size_continued (ds : List Declarator) :
    size? (continued ds) = (ds.map fun d => 1 + d.nodes).sum := by
  induction ds with
  | nil => rfl
  | cons d rest ih =>
    simp [continued, size_ofSlots, slotCount, d.size_toDiagram, ih, Nat.add_assoc]

end Declarator

namespace VarDecl

theorem leaves_toDiagram (decl : VarDecl) : decl.toDiagram.leaves = decl.parts := by
  obtain ⟨type, declarators⟩ := decl
  cases declarators with
  | nil => simp [toDiagram, parts, leaves_ofSlots, slotCount, type.leaves_toDiagram]
  | cons first rest =>
    obtain ⟨name, init⟩ := first
    have others := Declarator.leaves_continued rest
    cases init with
    | none =>
      simp [toDiagram, parts, Declarator.parts, optionParts, leaves_ofSlots, slotCount,
        type.leaves_toDiagram, others]
    | some value =>
      simp [toDiagram, parts, Declarator.parts, optionParts, leaves_ofSlots, slotCount,
        type.leaves_toDiagram, value.leaves_toDiagram, others]

theorem size_toDiagram (decl : VarDecl) : decl.toDiagram.size = decl.nodes := by
  obtain ⟨type, declarators⟩ := decl
  cases declarators with
  | nil => simp [toDiagram, nodes, size_ofSlots, slotCount, type.size_toDiagram]
  | cons first rest =>
    obtain ⟨name, init⟩ := first
    have others := Declarator.size_continued rest
    cases init with
    | none =>
      simp [toDiagram, nodes, optionNodes, size_ofSlots, slotCount, type.size_toDiagram, others]
      omega
    | some value =>
      simp [toDiagram, nodes, optionNodes, size_ofSlots, slotCount, type.size_toDiagram,
        value.size_toDiagram, others]
      omega

end VarDecl

namespace ArrayDecl

theorem leaves_toDiagram (decl : ArrayDecl) : decl.toDiagram.leaves = decl.parts := by
  have dims := Dims.leaves_toDiagram? decl.dims
  simp [toDiagram, parts, Dims.parts, leaves_ofSlots, slotCount, decl.type.leaves_toDiagram, dims]

theorem size_toDiagram (decl : ArrayDecl) : decl.toDiagram.size = decl.nodes := by
  have dims := Dims.size_toDiagram? decl.dims
  simp [toDiagram, nodes, size_ofSlots, slotCount, decl.type.size_toDiagram, dims]
  omega

end ArrayDecl

namespace ArrayInitializer

theorem leaves_elements (first : Expr) (rest : List Expr) :
    (elements first rest).leaves = (first :: rest).flatMap Expr.parts := by
  induction rest generalizing first with
  | nil => simp [elements, first.leaves_toDiagram]
  | cons next rest ih =>
    simp [elements, leaves_ofSlots, slotCount, first.leaves_toDiagram, ih]

theorem leaves_toDiagram (init : ArrayInitializer) : init.toDiagram.leaves = init.parts := by
  cases init with
  | list first rest => exact leaves_elements first rest
  | new type dims =>
    have created := (Expr.new type dims).leaves_toDiagram
    rw [Expr.parts] at created
    exact created

theorem size_elements (first : Expr) (rest : List Expr) :
    (elements first rest).size = first.nodes + (rest.map fun e => 1 + e.nodes).sum := by
  induction rest generalizing first with
  | nil => simp [elements, first.size_toDiagram]
  | cons next rest ih =>
    simp [elements, size_ofSlots, slotCount, first.size_toDiagram, ih]
    omega

theorem size_toDiagram (init : ArrayInitializer) : init.toDiagram.size = init.nodes := by
  cases init with
  | list first rest => exact size_elements first rest
  | new type dims =>
    have created := (Expr.new type dims).size_toDiagram
    rw [Expr.nodes] at created
    exact created

end ArrayInitializer

namespace ArrayInit

theorem leaves_toDiagram (init : ArrayInit) : init.toDiagram.leaves = init.parts := by
  simp [toDiagram, parts, leaves_ofSlots, slotCount, init.decl.leaves_toDiagram,
    init.init.leaves_toDiagram]

theorem size_toDiagram (init : ArrayInit) : init.toDiagram.size = init.nodes := by
  simp [toDiagram, nodes, size_ofSlots, slotCount, init.decl.size_toDiagram,
    init.init.size_toDiagram, Nat.add_assoc]

end ArrayInit

namespace Assignment

theorem leaves_toDiagram (a : Assignment) : a.toDiagram.leaves = a.parts := by
  simp [toDiagram, parts, leaves_ofSlots, slotCount, a.target.leaves_toDiagram,
    a.value.leaves_toDiagram]

theorem size_toDiagram (a : Assignment) : a.toDiagram.size = a.nodes := by
  simp [toDiagram, nodes, size_ofSlots, slotCount, a.target.size_toDiagram,
    a.value.size_toDiagram, Nat.add_assoc]

end Assignment

namespace Declaration

theorem leaves_toDiagram : (decl : Declaration) → decl.toDiagram.leaves = decl.parts
  | .variable decl => by
    simp [toDiagram, parts, leaves_ofSlots, slotCount, decl.leaves_toDiagram]
  | .array decl => by
    simp [toDiagram, parts, leaves_ofSlots, slotCount, decl.leaves_toDiagram]

theorem size_toDiagram : (decl : Declaration) → decl.toDiagram.size = decl.nodes
  | .variable decl => by
    simp [toDiagram, nodes, size_ofSlots, slotCount, decl.size_toDiagram]
  | .array decl => by
    simp [toDiagram, nodes, size_ofSlots, slotCount, decl.size_toDiagram]

end Declaration

namespace Initialization

theorem leaves_toDiagram (init : Initialization) : init.toDiagram.leaves = init.parts := by
  cases init with
  | assign a => simp [toDiagram, parts, leaves_ofSlots, slotCount, a.leaves_toDiagram]
  | array init => simp [toDiagram, parts, leaves_ofSlots, slotCount, init.leaves_toDiagram]

theorem size_toDiagram (init : Initialization) : init.toDiagram.size = init.nodes := by
  cases init with
  | assign a => simp [toDiagram, nodes, size_ofSlots, slotCount, a.size_toDiagram]
  | array init => simp [toDiagram, nodes, size_ofSlots, slotCount, init.size_toDiagram]

end Initialization

/-! ## Headers -/

theorem ForInit.leaves_toDiagram (init : ForInit) : init.toDiagram.leaves = init.parts := by
  cases init with
  | declaration decl => exact decl.leaves_toDiagram
  | assignment a => exact a.leaves_toDiagram

theorem ForInit.size_toDiagram (init : ForInit) : init.toDiagram.size = init.nodes := by
  cases init with
  | declaration decl => exact decl.size_toDiagram
  | assignment a => exact a.size_toDiagram

theorem ForUpdate.leaves_toDiagram (update : ForUpdate) :
    update.toDiagram.leaves = update.parts := by
  cases update with
  | incDec step => exact step.leaves_toDiagram
  | assignment a => exact a.leaves_toDiagram

theorem ForUpdate.size_toDiagram (update : ForUpdate) : update.toDiagram.size = update.nodes := by
  cases update with
  | incDec step => exact step.size_toDiagram
  | assignment a => exact a.size_toDiagram

namespace ForClauses

theorem leaves_toDiagram (clauses : ForClauses) : clauses.toDiagram.leaves = clauses.parts := by
  simp [toDiagram, parts, leaves_ofSlots, slotCount, leaves?_map, ForInit.leaves_toDiagram,
    Expr.leaves_toDiagram, ForUpdate.leaves_toDiagram]

theorem size_toDiagram (clauses : ForClauses) : clauses.toDiagram.size = clauses.nodes := by
  simp [toDiagram, nodes, size_ofSlots, slotCount, size?_map, ForInit.size_toDiagram,
    Expr.size_toDiagram, ForUpdate.size_toDiagram, Nat.add_assoc]

end ForClauses

/-! ## Statements -/

mutual

/-- A statement shows its own parts, and behind them whatever follows it. -/
theorem Stmt.leaves_toDiagram (following : Option Diagram) (stmt : Stmt) :
    (stmt.toDiagram following).leaves = stmt.parts ++ leaves? following := by
  cases stmt with
  | declaration decl =>
    simp [Stmt.toDiagram, Stmt.parts, leaves_ofSlots, slotCount, decl.leaves_toDiagram]
  | initialization init =>
    simp [Stmt.toDiagram, Stmt.parts, leaves_ofSlots, slotCount, init.leaves_toDiagram]
  | ifThen condition body =>
    have inner := Block.leaves_toDiagram? body
    simp [Stmt.toDiagram, Stmt.parts, leaves_ofSlots, slotCount, condition.leaves_toDiagram, inner]
  | ifElse condition body alternative =>
    have inner := Block.leaves_toDiagram? body
    have other := Block.leaves_toDiagram? alternative
    simp [Stmt.toDiagram, Stmt.parts, leaves_ofSlots, slotCount, condition.leaves_toDiagram, inner,
      other]
  | forLoop clauses body =>
    have inner := Block.leaves_toDiagram? body
    simp [Stmt.toDiagram, Stmt.parts, leaves_ofSlots, slotCount, clauses.leaves_toDiagram, inner]
  | step step =>
    simp [Stmt.toDiagram, Stmt.parts, leaves_ofSlots, slotCount, step.leaves_toDiagram]

theorem Block.leaves_toDiagram? (block : List Stmt) :
    leaves? (Block.toDiagram? block) = Block.parts block := by
  cases block with
  | nil => simp [Block.toDiagram?, Block.parts]
  | cons stmt rest =>
    have others := Block.leaves_toDiagram? rest
    have first := stmt.leaves_toDiagram (Block.toDiagram? rest)
    rw [Block.toDiagram?, Diagram.leaves?_some, first, others, Block.parts]

end

mutual

theorem Stmt.size_toDiagram (following : Option Diagram) (stmt : Stmt) :
    (stmt.toDiagram following).size = stmt.nodes + size? following := by
  cases stmt with
  | declaration decl =>
    simp [Stmt.toDiagram, Stmt.nodes, size_ofSlots, slotCount, decl.size_toDiagram, Nat.add_assoc]
  | initialization init =>
    simp [Stmt.toDiagram, Stmt.nodes, size_ofSlots, slotCount, init.size_toDiagram, Nat.add_assoc]
  | ifThen condition body =>
    have inner := Block.size_toDiagram? body
    simp [Stmt.toDiagram, Stmt.nodes, size_ofSlots, slotCount, condition.size_toDiagram, inner,
      Nat.add_assoc]
  | ifElse condition body alternative =>
    have inner := Block.size_toDiagram? body
    have other := Block.size_toDiagram? alternative
    simp [Stmt.toDiagram, Stmt.nodes, size_ofSlots, slotCount, condition.size_toDiagram, inner,
      other]
    omega
  | forLoop clauses body =>
    have inner := Block.size_toDiagram? body
    simp [Stmt.toDiagram, Stmt.nodes, size_ofSlots, slotCount, clauses.size_toDiagram, inner,
      Nat.add_assoc]
  | step step =>
    simp [Stmt.toDiagram, Stmt.nodes, size_ofSlots, slotCount, step.size_toDiagram, Nat.add_assoc]

theorem Block.size_toDiagram? (block : List Stmt) :
    size? (Block.toDiagram? block) = Block.nodes block := by
  cases block with
  | nil => simp [Block.toDiagram?, Block.nodes]
  | cons stmt rest =>
    have others := Block.size_toDiagram? rest
    have first := stmt.size_toDiagram (Block.toDiagram? rest)
    rw [Block.toDiagram?, Diagram.size?_some, first, others, Block.nodes]

end

/-! ## Classes -/

namespace Modifier

theorem leaves_toDiagram (m : Modifier) : m.toDiagram.leaves = m.parts := by
  simp [toDiagram, parts, leaves_ofSlots, slotCount, leaves?_map]

theorem size_toDiagram (m : Modifier) : m.toDiagram.size = m.nodes := by
  simp [toDiagram, nodes, size_ofSlots, slotCount, size?_map]
  omega

end Modifier

theorem Parameter.leaves_toDiagram (p : Parameter) : p.toDiagram.leaves = p.parts := by
  simp [toDiagram, parts, leaves_ofSlots, slotCount]

theorem Parameter.size_toDiagram (p : Parameter) : p.toDiagram.size = 3 := by
  simp [toDiagram, size_ofSlots, slotCount]

namespace MethodDecl

theorem leaves_toDiagram (method : MethodDecl) : method.toDiagram.leaves = method.parts := by
  have body := Block.leaves_toDiagram? method.body
  simp [toDiagram, parts, leaves_ofSlots, slotCount, method.modifier.leaves_toDiagram,
    method.returnType.leaves_toDiagram, method.parameter.leaves_toDiagram, body]

theorem size_toDiagram (method : MethodDecl) : method.toDiagram.size = method.nodes := by
  have body := Block.size_toDiagram? method.body
  simp [toDiagram, nodes, size_ofSlots, slotCount, method.modifier.size_toDiagram,
    method.returnType.size_toDiagram, method.parameter.size_toDiagram, body]
  omega

end MethodDecl

namespace ClassDecl

/-- A diagram shows every part of a class once and in order, and it has a node for
each of them: no slot is ever handed to a branch that is full. -/
theorem diagram_keeps_parts (decl : ClassDecl) :
    decl.toDiagram.leaves = decl.parts ∧ decl.toDiagram.size = decl.nodes := by
  constructor
  · simp [toDiagram, parts, leaves_ofSlots, slotCount, leaves?_map, Modifier.leaves_toDiagram,
      decl.method.leaves_toDiagram]
  · obtain ⟨modifier, name, method⟩ := decl
    cases modifier with
    | none =>
      simp [toDiagram, nodes, optionNodes, size_ofSlots, slotCount, method.size_toDiagram]
      omega
    | some m =>
      simp [toDiagram, nodes, optionNodes, size_ofSlots, slotCount, m.size_toDiagram,
        method.size_toDiagram]
      omega

end ClassDecl

end SyntaxTree
