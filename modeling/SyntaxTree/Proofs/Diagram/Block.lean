import SyntaxTree.Proofs.Diagram.Clause

/-!
# Blocks are shown up to their normal form

The chain of a block tells its statements apart, except for a branch or a loop
that has only one of a body and something behind it. In a normal block that one
is the body. So two classes have the same diagram if and only if they have the
same normal form.
-/

namespace SyntaxTree

open Diagram (leaf ofSlots slotCount)

namespace Block

theorem toDiagram?_eq_none {block : Block} : toDiagram? block = none ↔ block = [] := by
  cases block <;> simp [toDiagram?]

theorem exists_toDiagram? {block : Block} (h : block ≠ []) : ∃ d, toDiagram? block = some d :=
  Option.ne_none_iff_exists'.mp fun none => h (toDiagram?_eq_none.mp none)

theorem enclose_normalize {block : Block} (h : block ≠ []) (head : Block → Stmt)
    (following : Block) :
    enclose head (normalize block) following = head (normalize block) :: following := by
  cases shape : normalize block with
  | nil =>
    have shown := toDiagram?_normalize block
    rw [shape] at shown
    exact absurd (toDiagram?_eq_none.mp shown.symm) h
  | cons stmt rest => rfl

/-- The normal form of a block can be told from its diagram. -/
def IsTold (block : Block) : Prop :=
  ∀ other : Block, toDiagram? block = toDiagram? other → normalize block = normalize other

/-- Where only one of a body and what follows it is there, the diagram does not tell which one
it is, and the normal form takes it for the body. -/
theorem enclose_eq {head : Block → Stmt} {body rest body' rest' : Block} (inside : IsTold body)
    (behind : IsTold rest)
    (h : (toDiagram? body).toList ++ (toDiagram? rest).toList =
      (toDiagram? body').toList ++ (toDiagram? rest').toList) :
    enclose head (normalize body) (normalize rest) =
      enclose head (normalize body') (normalize rest') := by
  by_cases empty : body = []
  · subst empty
    by_cases empty' : body' = []
    · subst empty'
      have same : toDiagram? rest = toDiagram? rest' := by
        simpa [toDiagram?, Diagram.toList_inj] using h
      rw [behind rest' same]
    · obtain ⟨d, shown⟩ := exists_toDiagram? empty'
      have only : toDiagram? rest = some d ∧ toDiagram? rest' = none := by
        cases found : toDiagram? rest <;> simp_all [toDiagram?]
      obtain rfl := toDiagram?_eq_none.mp only.2
      rw [enclose_normalize empty', ← behind body' (only.1.trans shown.symm)]
      rfl
  · obtain ⟨d, shown⟩ := exists_toDiagram? empty
    by_cases empty' : body' = []
    · subst empty'
      have only : some d = toDiagram? rest' ∧ toDiagram? rest = none := by
        cases found : toDiagram? rest' <;> simp_all [toDiagram?]
      obtain rfl := toDiagram?_eq_none.mp only.2
      rw [enclose_normalize empty, inside rest' (shown.trans only.1)]
      rfl
    · obtain ⟨d', shown'⟩ := exists_toDiagram? empty'
      have both : d = d' ∧ toDiagram? rest = toDiagram? rest' := by
        simpa [shown, shown', Diagram.toList_inj] using h
      rw [enclose_normalize empty, enclose_normalize empty', behind rest' both.2,
        inside body' (by rw [shown, shown', both.1])]

end Block

mutual

theorem Stmt.normalize_eq {a b : Stmt} {rest rest' : Block} (behind : Block.IsTold rest)
    (h : a.toDiagram (Block.toDiagram? rest) = b.toDiagram (Block.toDiagram? rest')) :
    a.normalize (Block.normalize rest) = b.normalize (Block.normalize rest') := by
  cases a with
  | declaration decl =>
    cases b with
    | declaration decl' =>
      have parts : decl.toDiagram = decl'.toDiagram ∧
          Block.toDiagram? rest = Block.toDiagram? rest' := by
        simpa [Stmt.toDiagram, slotCount, Diagram.toList_inj] using h
      rw [Declaration.toDiagram_injective parts.1, Stmt.normalize, Stmt.normalize,
        behind rest' parts.2]
    | _ => simp [Stmt.toDiagram] at h
  | initialization init =>
    cases b with
    | initialization init' =>
      have parts : init.toDiagram = init'.toDiagram ∧
          Block.toDiagram? rest = Block.toDiagram? rest' := by
        simpa [Stmt.toDiagram, slotCount, Diagram.toList_inj] using h
      rw [Stmt.normalize, Stmt.normalize, Initialization.normalize_eq parts.1, behind rest' parts.2]
    | _ => simp [Stmt.toDiagram] at h
  | ifThen condition body =>
    cases b with
    | ifThen condition' body' =>
      have parts : condition.toDiagram = condition'.toDiagram ∧
          (Block.toDiagram? body).toList ++ (Block.toDiagram? rest).toList =
            (Block.toDiagram? body').toList ++ (Block.toDiagram? rest').toList := by
        simpa [Stmt.toDiagram, slotCount] using h
      rw [Stmt.normalize, Stmt.normalize, Expr.toDiagram_injective parts.1,
        Block.enclose_eq (Block.isTold body) behind parts.2]
    | _ => simp [Stmt.toDiagram] at h
  | ifElse condition body alternative =>
    cases b with
    | ifElse condition' body' alternative' =>
      have parts : (condition.toDiagram = condition'.toDiagram ∧
            Block.toDiagram? body = Block.toDiagram? body') ∧
          Block.toDiagram? alternative = Block.toDiagram? alternative' ∧
            Block.toDiagram? rest = Block.toDiagram? rest' := by
        simpa [Stmt.toDiagram, slotCount, Diagram.toList_inj] using h
      rw [Stmt.normalize, Stmt.normalize, Expr.toDiagram_injective parts.1.1,
        Block.isTold body _ parts.1.2, Block.isTold alternative _ parts.2.1,
        behind rest' parts.2.2]
    | _ => simp [Stmt.toDiagram] at h
  | forLoop clauses body =>
    cases b with
    | forLoop clauses' body' =>
      have parts : clauses.toDiagram = clauses'.toDiagram ∧
          (Block.toDiagram? body).toList ++ (Block.toDiagram? rest).toList =
            (Block.toDiagram? body').toList ++ (Block.toDiagram? rest').toList := by
        simpa [Stmt.toDiagram, slotCount] using h
      rw [Stmt.normalize, Stmt.normalize, ForClauses.normalize_eq parts.1,
        Block.enclose_eq (Block.isTold body) behind parts.2]
    | _ => simp [Stmt.toDiagram] at h
  | step step =>
    cases b with
    | step step' =>
      have parts : step.toDiagram = step'.toDiagram ∧
          Block.toDiagram? rest = Block.toDiagram? rest' := by
        simpa [Stmt.toDiagram, slotCount, Diagram.toList_inj] using h
      rw [IncDec.toDiagram_injective parts.1, Stmt.normalize, Stmt.normalize,
        behind rest' parts.2]
    | _ => simp [Stmt.toDiagram] at h

theorem Block.isTold (block : List Stmt) : Block.IsTold block := by
  intro other h
  cases block with
  | nil =>
    have empty : other = [] := Block.toDiagram?_eq_none.mp h.symm
    rw [empty]
  | cons stmt rest =>
    cases other with
    | nil => cases h
    | cons stmt' rest' => exact Stmt.normalize_eq (Block.isTold rest) (Option.some.inj h)

end

theorem Modifier.toDiagram_injective {a b : Modifier} (h : a.toDiagram = b.toDiagram) : a = b := by
  obtain ⟨access, qualifier⟩ := a
  obtain ⟨access', qualifier'⟩ := b
  have parts : access.keyword = access'.keyword ∧
      qualifier.map Qualifier.keyword = qualifier'.map Qualifier.keyword := by
    cases qualifier <;> cases qualifier' <;> simp [toDiagram, slotCount] at h <;> simp [h]
  have access_eq : access = access' := by
    cases access <;> cases access' <;> simp [Access.keyword] at parts ⊢
  have qualifier_eq : qualifier = qualifier' := by
    refine (Option.map_inj_right fun q q' same => ?_).mp parts.2
    cases q <;> cases q' <;> simp [Qualifier.keyword] at same ⊢
  rw [access_eq, qualifier_eq]

namespace Parameter

/-- The brackets of an array belong to no type. -/
theorem keyword_injective {type type' : DataType} {isArray isArray' : Bool}
    (h : (if isArray then type.keyword ++ "[]" else type.keyword) =
      if isArray' then type'.keyword ++ "[]" else type'.keyword) :
    type = type' ∧ isArray = isArray' := by
  cases type <;> cases isArray <;> cases type' <;> cases isArray' <;>
    first | exact ⟨rfl, rfl⟩ | exact absurd h (by decide)

theorem toDiagram_injective {a b : Parameter} (h : a.toDiagram = b.toDiagram) : a = b := by
  obtain ⟨type, isArray, name⟩ := a
  obtain ⟨type', isArray', name'⟩ := b
  have parts : (if isArray then type.keyword ++ "[]" else type.keyword) =
      (if isArray' then type'.keyword ++ "[]" else type'.keyword) ∧ name = name' := by
    simpa [toDiagram, slotCount] using h
  obtain ⟨rfl, rfl⟩ := keyword_injective parts.1
  rw [parts.2]

end Parameter

theorem MethodDecl.normalize_eq {a b : MethodDecl} (h : a.toDiagram = b.toDiagram) :
    a.normalize = b.normalize := by
  obtain ⟨modifier, type, parameter, body⟩ := a
  obtain ⟨modifier', type', parameter', body'⟩ := b
  have parts : modifier.toDiagram = modifier'.toDiagram ∧ type.toDiagram = type'.toDiagram ∧
      parameter.toDiagram = parameter'.toDiagram ∧
        Block.toDiagram? body = Block.toDiagram? body' := by
    simpa [toDiagram, slotCount, Diagram.toList_inj] using h
  obtain ⟨modifier_eq, type_eq, parameter_eq, body_eq⟩ := parts
  simp only [normalize]
  rw [Modifier.toDiagram_injective modifier_eq, DataType.toDiagram_injective type_eq,
    Parameter.toDiagram_injective parameter_eq, Block.isTold body body' body_eq]

theorem ClassDecl.normalize_eq {a b : ClassDecl} (h : a.toDiagram = b.toDiagram) :
    a.normalize = b.normalize := by
  obtain ⟨modifier, name, method⟩ := a
  obtain ⟨modifier', name', method'⟩ := b
  have parts : modifier.map Modifier.toDiagram = modifier'.map Modifier.toDiagram ∧
      name = name' ∧ method.toDiagram = method'.toDiagram := by
    cases modifier <;> cases modifier' <;> simp [toDiagram, slotCount] at h <;> simp [h]
  obtain ⟨modifier_eq, rfl, method_eq⟩ := parts
  have modifier_eq' := (Option.map_inj_right fun _ _ => Modifier.toDiagram_injective).mp modifier_eq
  simp only [normalize]
  rw [modifier_eq', MethodDecl.normalize_eq method_eq]

/-- The normal form has no other normal form. -/
theorem ClassDecl.normalize_normalize (decl : ClassDecl) :
    decl.normalize.normalize = decl.normalize :=
  ClassDecl.normalize_eq decl.toDiagram_normalize

/-- Two classes have the same diagram if and only if they have the same normal form, whatever
their statements, sizes and names are. -/
theorem same_diagram_iff (a b : ClassDecl) :
    a.toDiagram = b.toDiagram ↔ a.normalize = b.normalize := by
  constructor
  · exact ClassDecl.normalize_eq
  · intro h
    rw [← a.toDiagram_normalize, h, b.toDiagram_normalize]

end SyntaxTree
