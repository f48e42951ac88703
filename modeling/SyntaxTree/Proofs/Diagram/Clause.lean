import SyntaxTree.Proofs.Diagram.Normal

/-!
# Clauses are shown up to their normal form

Declarations and assignments are shown in full. The diagram of a header lists the
clauses that are there. What each of them is can be told from its label, and in a
normal header this is enough to tell which clause it is.
-/

namespace SyntaxTree

open Diagram (leaf ofSlots slotCount)

@[simp] theorem AssignOp.symbol_inj {op op' : AssignOp} : op.symbol = op'.symbol ↔ op = op' := by
  constructor
  · intro h
    have same := congrArg AssignOp.ofSymbol? h
    rw [AssignOp.ofSymbol?_symbol, AssignOp.ofSymbol?_symbol] at same
    exact Option.some.inj same
  · rintro rfl
    rfl

namespace Declarator

theorem toDiagram_injective {a b : Declarator} (h : a.toDiagram = b.toDiagram) : a = b := by
  obtain ⟨name, init⟩ := a
  obtain ⟨name', init'⟩ := b
  cases init with
  | none =>
    cases init' with
    | none => simpa [toDiagram] using h
    | some value' => simp [toDiagram] at h
  | some value =>
    cases init' with
    | none => simp [toDiagram] at h
    | some value' =>
      have parts : name = name' ∧ value.toDiagram = value'.toDiagram := by
        simpa [toDiagram, slotCount] using h
      rw [parts.1, Expr.toDiagram_injective parts.2]

theorem continued_injective {as bs : List Declarator} (h : continued as = continued bs) :
    as = bs := by
  induction as generalizing bs with
  | nil =>
    cases bs with
    | nil => rfl
    | cons d rest => cases h
  | cons d rest ih =>
    cases bs with
    | nil => cases h
    | cons d' rest' =>
      have parts : d.toDiagram = d'.toDiagram ∧ continued rest = continued rest' := by
        simpa [continued, slotCount, Diagram.toList_inj] using h
      rw [toDiagram_injective parts.1, ih parts.2]

end Declarator

namespace VarDecl

/-- The slots of a declaration, where the label tells whether the third one is occupied. -/
theorem toDiagram_cons (type : DataType) (name : String) (init : Option Expr)
    (rest : List Declarator) :
    toDiagram ⟨type, ⟨name, init⟩ :: rest⟩ =
      ofSlots (if init.isSome then "variable initialisation" else "variable declaration")
        [some type.toDiagram, some (leaf "id" name), init.map Expr.toDiagram,
          Declarator.continued rest] := by
  cases init <;> simp [toDiagram, slotCount]

theorem toDiagram_injective {a b : VarDecl} (h : a.toDiagram = b.toDiagram) : a = b := by
  obtain ⟨type, as⟩ := a
  obtain ⟨type', bs⟩ := b
  cases as with
  | nil =>
    cases bs with
    | nil =>
      have same : type.toDiagram = type'.toDiagram := by simpa [toDiagram, slotCount] using h
      rw [DataType.toDiagram_injective same]
    | cons d rest =>
      rw [toDiagram_cons] at h
      simp [toDiagram, slotCount] at h
  | cons d rest =>
    obtain ⟨name, init⟩ := d
    cases bs with
    | nil =>
      rw [toDiagram_cons] at h
      simp [toDiagram, slotCount] at h
    | cons d' rest' =>
      obtain ⟨name', init'⟩ := d'
      rw [toDiagram_cons, toDiagram_cons] at h
      have first : init = init' ∧ type.toDiagram = type'.toDiagram ∧ name = name' ∧
          Declarator.continued rest = Declarator.continued rest' := by
        cases init with
        | none =>
          cases init' with
          | none => simpa [slotCount, Diagram.toList_inj] using h
          | some value' => simp at h
        | some value =>
          cases init' with
          | none => simp at h
          | some value' =>
            have parts : type.toDiagram = type'.toDiagram ∧ name = name' ∧
                value.toDiagram = value'.toDiagram ∧
                  Declarator.continued rest = Declarator.continued rest' := by
              simpa [slotCount, Diagram.toList_inj] using h
            obtain ⟨type, name, value, behind⟩ := parts
            exact ⟨congrArg some (Expr.toDiagram_injective value), type, name, behind⟩
      obtain ⟨rfl, type, rfl, behind⟩ := first
      rw [DataType.toDiagram_injective type, Declarator.continued_injective behind]

end VarDecl

namespace ArrayDecl

theorem toDiagram_injective {a b : ArrayDecl} (h : a.toDiagram = b.toDiagram) : a = b := by
  obtain ⟨type, name, dims⟩ := a
  obtain ⟨type', name', dims'⟩ := b
  have parts : type.toDiagram = type'.toDiagram ∧ name = name' ∧
      Dims.toDiagram? dims = Dims.toDiagram? dims' := by
    simpa [toDiagram, slotCount, Diagram.toList_inj] using h
  rw [DataType.toDiagram_injective parts.1, parts.2.1, Dims.toDiagram?_injective parts.2.2]

end ArrayDecl

namespace ArrayInitializer

/-- No expression is shown as a list of several elements. -/
theorem comma_ne (slots : List (Option Diagram)) (e : Expr) : ofSlots "," slots ≠ e.toDiagram := by
  cases e <;> simp (disch := decide) [Expr.toDiagram, IncDecOp.diagram_eq, BinaryOp.ne_symbol]

theorem elements_injective {first first' : Expr} {rest rest' : List Expr}
    (h : elements first rest = elements first' rest') : first = first' ∧ rest = rest' := by
  induction rest generalizing first first' rest' with
  | nil =>
    cases rest' with
    | nil => exact ⟨Expr.toDiagram_injective h, rfl⟩
    | cons next tail => exact absurd h.symm (comma_ne _ _)
  | cons next tail ih =>
    cases rest' with
    | nil => exact absurd h (comma_ne _ _)
    | cons next' tail' =>
      have parts : first.toDiagram = first'.toDiagram ∧
          elements next tail = elements next' tail' := by
        simpa [elements, slotCount] using h
      obtain ⟨rfl, rfl⟩ := ih parts.2
      exact ⟨Expr.toDiagram_injective parts.1, rfl⟩

/-- The list that a new array stands for. -/
def asList : ArrayInitializer → Expr × List Expr
  | .list first rest => (first, rest)
  | .new type dims => (.new type dims, [])

theorem normalize_of_asList {a b : ArrayInitializer} (h : a.asList = b.asList) :
    a.normalize = b.normalize := by
  have list (init : ArrayInitializer) :
      (ArrayInitializer.list init.asList.1 init.asList.2).normalize = init.normalize := by
    cases init <;> rfl
  rw [← list a, ← list b, h]

theorem elements_asList (init : ArrayInitializer) :
    elements init.asList.1 init.asList.2 = init.toDiagram := by
  cases init <;> rfl

theorem normalize_eq {a b : ArrayInitializer} (h : a.toDiagram = b.toDiagram) :
    a.normalize = b.normalize := by
  rw [← elements_asList a, ← elements_asList b] at h
  obtain ⟨first, rest⟩ := elements_injective h
  exact normalize_of_asList (Prod.ext first rest)

end ArrayInitializer

theorem ArrayInit.normalize_eq {a b : ArrayInit} (h : a.toDiagram = b.toDiagram) :
    a.normalize = b.normalize := by
  have parts : a.decl.toDiagram = b.decl.toDiagram ∧ a.init.toDiagram = b.init.toDiagram := by
    simpa [toDiagram, slotCount] using h
  rw [normalize, normalize, ArrayDecl.toDiagram_injective parts.1,
    ArrayInitializer.normalize_eq parts.2]

theorem Assignment.toDiagram_injective {a b : Assignment} (h : a.toDiagram = b.toDiagram) :
    a = b := by
  obtain ⟨target, op, value⟩ := a
  obtain ⟨target', op', value'⟩ := b
  have parts : op = op' ∧ target.toDiagram = target'.toDiagram ∧
      value.toDiagram = value'.toDiagram := by
    simpa [toDiagram, slotCount] using h
  rw [parts.1, Expr.toDiagram_injective parts.2.1, Expr.toDiagram_injective parts.2.2]

theorem IncDec.toDiagram_injective {a b : IncDec} (h : a.toDiagram = b.toDiagram) : a = b := by
  obtain ⟨op, fixity, operand⟩ := a
  obtain ⟨op', fixity', operand'⟩ := b
  have shown : op.diagram fixity operand.toDiagram = op'.diagram fixity' operand'.toDiagram := h
  obtain ⟨rfl, rfl, same⟩ := IncDecOp.diagram_inj shown
  rw [Expr.toDiagram_injective same]

theorem Declaration.toDiagram_injective :
    ∀ {a b : Declaration}, a.toDiagram = b.toDiagram → a = b
  | .variable decl, .variable decl', h => by
    have same : decl.toDiagram = decl'.toDiagram := by simpa [toDiagram, slotCount] using h
    rw [VarDecl.toDiagram_injective same]
  | .array decl, .array decl', h => by
    have same : decl.toDiagram = decl'.toDiagram := by simpa [toDiagram, slotCount] using h
    rw [ArrayDecl.toDiagram_injective same]
  | .variable decl, .array decl', h => by simp [toDiagram] at h
  | .array decl, .variable decl', h => by simp [toDiagram] at h

theorem Initialization.normalize_eq {a b : Initialization} (h : a.toDiagram = b.toDiagram) :
    a.normalize = b.normalize := by
  cases a with
  | assign a =>
    cases b with
    | assign b =>
      have same : a.toDiagram = b.toDiagram := by simpa [toDiagram, slotCount] using h
      rw [Assignment.toDiagram_injective same]
    | array => simp [toDiagram] at h
  | array init =>
    cases b with
    | assign => simp [toDiagram] at h
    | array init' =>
      have same : init.toDiagram = init'.toDiagram := by simpa [toDiagram, slotCount] using h
      rw [normalize, normalize, ArrayInit.normalize_eq same]

/-- What a diagram in a header can stand for, by its label. -/
inductive Diagram.Role where
  | declaration
  | assignment
  | step
  /-- Any other expression, which can only be the condition. -/
  | operand
  deriving DecidableEq, Repr

namespace Diagram

def role (d : Diagram) : Role :=
  if d.label = "variable declaration" ∨ d.label = "variable initialisation" then .declaration
  else if (AssignOp.ofSymbol? d.label).isSome then .assignment
  else if d.label = "UNARY OPERATION" then .step
  else .operand

/-- The clauses behind the first one of a normal header, from the diagrams that are there. -/
def laterClauses : List Diagram → Option Diagram × Option Diagram
  | [] => (none, none)
  | [d] => if d.role = .operand then (some d, none) else (none, some d)
  | condition :: update :: _ => (some condition, some update)

/-- The clauses of a normal header, from the diagrams that are there. -/
def clauses : List Diagram → Option Diagram × Option Diagram × Option Diagram
  | [] => (none, none, none)
  | d :: rest =>
    if d.role = .declaration ∨ d.role = .assignment then (some d, laterClauses rest)
    else (none, laterClauses (d :: rest))

end Diagram

theorem VarDecl.role_toDiagram (decl : VarDecl) : decl.toDiagram.role = .declaration := by
  obtain ⟨type, declarators⟩ := decl
  cases declarators with
  | nil => rfl
  | cons d rest =>
    obtain ⟨name, init⟩ := d
    cases init <;> rfl

theorem Assignment.role_toDiagram (a : Assignment) : a.toDiagram.role = .assignment := by
  obtain ⟨target, op, value⟩ := a
  cases op <;> rfl

theorem IncDec.role_toDiagram (step : IncDec) : step.toDiagram.role = .step := by
  rw [IncDec.toDiagram, IncDecOp.diagram_eq]
  rfl

/-- A step on its own is told from every other expression. -/
theorem Expr.role_toDiagram (e : Expr) :
    (e.toDiagram.role = .operand ∧ ∀ step : IncDec, e ≠ step.toExpr) ∨
      ∃ step : IncDec, e = step.toExpr ∧ e.toDiagram.role = .step := by
  cases e with
  | incDec op fixity operand =>
    exact .inr ⟨⟨op, fixity, operand⟩, rfl, IncDec.role_toDiagram ⟨op, fixity, operand⟩⟩
  | binary op lhs rhs => exact .inl ⟨by cases op <;> rfl, by simp [IncDec.toExpr]⟩
  | _ => exact .inl ⟨rfl, by simp [IncDec.toExpr]⟩

theorem ForInit.role_toDiagram (init : ForInit) :
    init.toDiagram.role = .declaration ∨ init.toDiagram.role = .assignment := by
  cases init with
  | declaration decl => exact .inl decl.role_toDiagram
  | assignment a => exact .inr a.role_toDiagram

theorem ForUpdate.role_toDiagram (update : ForUpdate) :
    update.toDiagram.role = .step ∨ update.toDiagram.role = .assignment := by
  cases update with
  | incDec step => exact .inl step.role_toDiagram
  | assignment a => exact .inr a.role_toDiagram

theorem ForInit.toDiagram_injective {a b : ForInit} (h : a.toDiagram = b.toDiagram) : a = b := by
  have role := congrArg Diagram.role h
  cases a with
  | declaration decl =>
    cases b with
    | declaration decl' => rw [VarDecl.toDiagram_injective h]
    | assignment a' =>
      rw [toDiagram, toDiagram, decl.role_toDiagram, a'.role_toDiagram] at role
      cases role
  | assignment a =>
    cases b with
    | declaration decl' =>
      rw [toDiagram, toDiagram, a.role_toDiagram, decl'.role_toDiagram] at role
      cases role
    | assignment a' => rw [Assignment.toDiagram_injective h]

theorem ForUpdate.toDiagram_injective {a b : ForUpdate} (h : a.toDiagram = b.toDiagram) :
    a = b := by
  have role := congrArg Diagram.role h
  cases a with
  | incDec step =>
    cases b with
    | incDec step' => rw [IncDec.toDiagram_injective h]
    | assignment a' =>
      rw [toDiagram, toDiagram, step.role_toDiagram, a'.role_toDiagram] at role
      cases role
  | assignment a =>
    cases b with
    | incDec step' =>
      rw [toDiagram, toDiagram, a.role_toDiagram, step'.role_toDiagram] at role
      cases role
    | assignment a' => rw [Assignment.toDiagram_injective h]

namespace ForClauses

open Diagram (clauses laterClauses)

theorem normalize_step (init : Option ForInit) (step : IncDec) :
    normalize ⟨init, some step.toExpr, none⟩ = ⟨init, none, some (.incDec step)⟩ := by
  cases init <;> rfl

theorem normalize_of_update (init : Option ForInit) (condition : Expr) (update : ForUpdate) :
    normalize ⟨init, some condition, some update⟩ = ⟨init, some condition, some update⟩ := by
  simp [normalize]

theorem normalize_of_ne {condition : Expr} (h : ∀ step : IncDec, condition ≠ step.toExpr)
    (init : Option ForInit) (update : Option ForUpdate) :
    normalize ⟨init, some condition, update⟩ = ⟨init, some condition, update⟩ := by
  unfold normalize
  split
  · rename_i same
    cases same
  · rename_i op fixity operand same
    cases same
    exact absurd rfl (h ⟨op, fixity, operand⟩)
  · rfl

/-- Behind a first clause, or behind its place if a condition is there, the clauses that are
there tell which ones they are. -/
theorem laterClauses_toDiagram {init : Option ForInit} {condition : Option Expr}
    (h : init.isSome ∨ condition.isSome) (update : Option ForUpdate) :
    (normalize ⟨init, condition, update⟩).init = init ∧
      laterClauses ((condition.map Expr.toDiagram).toList ++
          (update.map ForUpdate.toDiagram).toList) =
        ((normalize ⟨init, condition, update⟩).condition.map Expr.toDiagram,
          (normalize ⟨init, condition, update⟩).update.map ForUpdate.toDiagram) := by
  cases condition with
  | none =>
    obtain ⟨init, rfl⟩ := Option.isSome_iff_exists.mp (h.resolve_right (by simp))
    cases update with
    | none => exact ⟨rfl, rfl⟩
    | some update =>
      have other : update.toDiagram.role ≠ .operand := by
        obtain role | role := update.role_toDiagram <;> rw [role] <;> decide
      exact ⟨rfl, if_neg other⟩
  | some e =>
    cases update with
    | some update =>
      rw [normalize_of_update]
      exact ⟨rfl, rfl⟩
    | none =>
      obtain ⟨role, other⟩ | ⟨step, rfl, role⟩ := e.role_toDiagram
      · rw [normalize_of_ne other]
        exact ⟨rfl, if_pos role⟩
      · rw [normalize_step]
        exact ⟨rfl, if_neg (by rw [role]; decide)⟩

/-- The clauses of a normal header can be told from its diagram. -/
theorem clauses_toDiagram (c : ForClauses) : clauses c.toDiagram.children =
    (c.normalize.init.map ForInit.toDiagram, c.normalize.condition.map Expr.toDiagram,
      c.normalize.update.map ForUpdate.toDiagram) := by
  obtain ⟨init, condition, update⟩ := c
  have listed : (toDiagram ⟨init, condition, update⟩).children =
      (init.map ForInit.toDiagram).toList ++ ((condition.map Expr.toDiagram).toList ++
        (update.map ForUpdate.toDiagram).toList) := by
    simp [toDiagram, Diagram.ofSlots_eq, slotCount, Diagram.children]
  rw [listed]
  cases init with
  | some init =>
    obtain ⟨first, later⟩ :=
      laterClauses_toDiagram (.inl rfl : (some init).isSome ∨ condition.isSome) update
    rw [first, ← later]
    exact if_pos init.role_toDiagram
  | none =>
    cases condition with
    | some e =>
      obtain ⟨first, later⟩ :=
        laterClauses_toDiagram (.inr rfl : none.isSome ∨ (some e).isSome) update
      have other : ¬(e.toDiagram.role = .declaration ∨ e.toDiagram.role = .assignment) := by
        obtain ⟨role, -⟩ | ⟨-, -, role⟩ := e.role_toDiagram <;> rw [role] <;> decide
      rw [first, ← later]
      exact if_neg other
    | none =>
      cases update with
      | none => rfl
      | some update =>
        cases update with
        | incDec step =>
          have later : laterClauses [step.toDiagram] = (none, some step.toDiagram) :=
            if_neg (by rw [step.role_toDiagram]; decide)
          have first : clauses [step.toDiagram] = (none, laterClauses [step.toDiagram]) :=
            if_neg (by rw [step.role_toDiagram]; decide)
          exact first.trans (congrArg (Prod.mk none) later)
        | assignment a => exact if_pos (.inr a.role_toDiagram)

theorem normalize_eq {a b : ForClauses} (h : a.toDiagram = b.toDiagram) :
    a.normalize = b.normalize := by
  have same := congrArg (fun d => clauses d.children) h
  simp only [clauses_toDiagram, Prod.mk.injEq] at same
  obtain ⟨init, condition, update⟩ := same
  have init' := (Option.map_inj_right fun _ _ => ForInit.toDiagram_injective).mp init
  have condition' := (Option.map_inj_right fun _ _ => Expr.toDiagram_injective).mp condition
  have update' := (Option.map_inj_right fun _ _ => ForUpdate.toDiagram_injective).mp update
  cases ha : a.normalize
  cases hb : b.normalize
  rw [ha, hb] at init' condition' update'
  congr

end ForClauses

end SyntaxTree
