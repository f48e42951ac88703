import SyntaxTree.Proofs.Diagram.Expr

/-!
# Normal programs

Four ways of writing the same look alike in a diagram, because an absent part
takes no slot there. What follows a branch or a loop with an empty body might be
that body. A lone assignment in a header might be its first clause or its last
one, and a step behind the first clause its second or its third. A list with one
new array for an element might be that array itself.

`normalize` decides all of them the same way, everywhere in a program, and leaves
the diagram as it is.
-/

namespace SyntaxTree

open Diagram (leaf ofSlots slotCount)

namespace ArrayInitializer

/-- A new array stands for the list that has nothing else in it. -/
def normalize : ArrayInitializer → ArrayInitializer
  | .list (.new type dims) [] => .new type dims
  | init => init

theorem toDiagram_normalize (init : ArrayInitializer) :
    init.normalize.toDiagram = init.toDiagram := by
  unfold normalize
  split <;> rfl

end ArrayInitializer

def ArrayInit.normalize (init : ArrayInit) : ArrayInit :=
  { init with init := init.init.normalize }

theorem ArrayInit.toDiagram_normalize (init : ArrayInit) :
    init.normalize.toDiagram = init.toDiagram := by
  rw [ArrayInit.toDiagram, ArrayInit.normalize, ArrayInitializer.toDiagram_normalize]
  rfl

namespace Initialization

def normalize : Initialization → Initialization
  | .assign a => .assign a
  | .array init => .array init.normalize

theorem toDiagram_normalize (init : Initialization) :
    init.normalize.toDiagram = init.toDiagram := by
  cases init with
  | assign a => rfl
  | array init => rw [normalize, toDiagram, ArrayInit.toDiagram_normalize, toDiagram]

end Initialization

namespace ForClauses

/-- A lone assignment comes first, and a step without an update is the update. -/
def normalize : ForClauses → ForClauses
  | ⟨none, none, some (.assignment a)⟩ => ⟨some (.assignment a), none, none⟩
  | ⟨init, some (.incDec op fixity operand), none⟩ =>
    ⟨init, none, some (.incDec ⟨op, fixity, operand⟩)⟩
  | clauses => clauses

theorem toDiagram_normalize (clauses : ForClauses) :
    clauses.normalize.toDiagram = clauses.toDiagram := by
  unfold normalize
  split
  · simp [toDiagram, ForInit.toDiagram, ForUpdate.toDiagram, slotCount]
  · simp [toDiagram, ForUpdate.toDiagram, IncDec.toDiagram, Expr.toDiagram, slotCount]
  · rfl

end ForClauses

/-- A branch or a loop around a body, with what follows it. Around no body it takes all that
follows. -/
def Block.enclose (head : Block → Stmt) (body following : Block) : Block :=
  match body with
  | [] => [head following]
  | stmt :: rest => head (stmt :: rest) :: following

mutual

/-- A statement with what follows it in its block. -/
def Stmt.normalize (following : Block) : Stmt → Block
  | .declaration decl => .declaration decl :: following
  | .initialization init => .initialization init.normalize :: following
  | .ifThen condition body => Block.enclose (.ifThen condition) (Block.normalize body) following
  | .ifElse condition body alternative =>
    .ifElse condition (Block.normalize body) (Block.normalize alternative) :: following
  | .forLoop clauses body =>
    Block.enclose (.forLoop clauses.normalize) (Block.normalize body) following
  | .step step => .step step :: following

def Block.normalize : List Stmt → Block
  | [] => []
  | stmt :: rest => Stmt.normalize (Block.normalize rest) stmt

end

theorem Block.toDiagram?_enclose {head : Block → Stmt} {label : String} {front : Diagram}
    (shown : ∀ body following, (head body).toDiagram following =
      ofSlots label [some front, Block.toDiagram? body, following]) (body following : Block) :
    Block.toDiagram? (Block.enclose head body following) =
      some (ofSlots label [some front, Block.toDiagram? body, Block.toDiagram? following]) := by
  cases body with
  | nil => simp [Block.enclose, Block.toDiagram?, shown, slotCount]
  | cons stmt rest => rw [Block.enclose, Block.toDiagram?, shown]

mutual

theorem Stmt.toDiagram?_normalize (stmt : Stmt) (following : Block) :
    Block.toDiagram? (stmt.normalize following) =
      some (stmt.toDiagram (Block.toDiagram? following)) := by
  cases stmt with
  | declaration decl => rfl
  | initialization init =>
    rw [Stmt.normalize, Block.toDiagram?, Stmt.toDiagram, Initialization.toDiagram_normalize,
      Stmt.toDiagram]
  | ifThen condition body =>
    rw [Stmt.normalize, Block.toDiagram?_enclose (fun _ _ => rfl), Block.toDiagram?_normalize,
      Stmt.toDiagram]
  | ifElse condition body alternative =>
    rw [Stmt.normalize, Block.toDiagram?, Stmt.toDiagram, Block.toDiagram?_normalize,
      Block.toDiagram?_normalize, Stmt.toDiagram]
  | forLoop clauses body =>
    rw [Stmt.normalize, Block.toDiagram?_enclose (fun _ _ => rfl), Block.toDiagram?_normalize,
      ForClauses.toDiagram_normalize, Stmt.toDiagram]
  | step step => rfl

theorem Block.toDiagram?_normalize (block : List Stmt) :
    Block.toDiagram? (Block.normalize block) = Block.toDiagram? block := by
  cases block with
  | nil => rfl
  | cons stmt rest =>
    rw [Block.normalize, Stmt.toDiagram?_normalize, Block.toDiagram?_normalize, Block.toDiagram?]

end

def MethodDecl.normalize (method : MethodDecl) : MethodDecl :=
  { method with body := Block.normalize method.body }

theorem MethodDecl.toDiagram_normalize (method : MethodDecl) :
    method.normalize.toDiagram = method.toDiagram := by
  rw [MethodDecl.toDiagram, MethodDecl.normalize, Block.toDiagram?_normalize]
  rfl

def ClassDecl.normalize (decl : ClassDecl) : ClassDecl :=
  { decl with method := decl.method.normalize }

theorem ClassDecl.toDiagram_normalize (decl : ClassDecl) :
    decl.normalize.toDiagram = decl.toDiagram := by
  rw [ClassDecl.toDiagram, ClassDecl.normalize, MethodDecl.toDiagram_normalize]
  rfl

end SyntaxTree
