import SyntaxTree.Program.Diagram

/-!
# Expressions are shown in full

A branch keeps its occupied slots only, so nothing but their order can be told
from it. For expressions this is enough: two expressions with the same diagram
are the same, whatever stands in their indices and dimensions.

The one doubtful label is `bracket`, which is used both for an index and for a
dimension. A chain of dimensions ends in a branch with a single child or in a
leaf, and an index in neither.
-/

namespace SyntaxTree

namespace Diagram

theorem ofSlots_eq (label : String) (slots : List (Option Diagram)) :
    ofSlots label slots = branch label ((slots.take slotCount).flatMap Option.toList) := by
  rw [ofSlots]
  congr 1
  induction slots.take slotCount with
  | nil => rfl
  | cons slot rest ih => cases slot <;> simpa using ih

@[simp] theorem ofSlots_inj {label label' : String} {slots slots' : List (Option Diagram)} :
    ofSlots label slots = ofSlots label' slots' ↔ label = label' ∧
      (slots.take slotCount).flatMap Option.toList =
        (slots'.take slotCount).flatMap Option.toList := by
  simp [ofSlots_eq]

@[simp] theorem leaf_ne_ofSlots {label label' value : String} {slots : List (Option Diagram)} :
    leaf label value ≠ ofSlots label' slots := by
  simp [ofSlots]

@[simp] theorem ofSlots_ne_leaf {label label' value : String} {slots : List (Option Diagram)} :
    ofSlots label' slots ≠ leaf label value := by
  simp [ofSlots]

/-- A slot is told from what it occupies. -/
theorem toList_inj {slot slot' : Option Diagram} : slot.toList = slot'.toList ↔ slot = slot' := by
  constructor
  · intro h
    simpa using congrArg List.head? h
  · rintro rfl
    rfl

end Diagram

open Diagram (leaf ofSlots slotCount)

@[simp] theorem BinaryOp.symbol_inj {op op' : BinaryOp} : op.symbol = op'.symbol ↔ op = op' := by
  constructor
  · intro h
    have same := congrArg BinaryOp.ofSymbol? h
    rw [BinaryOp.ofSymbol?_symbol, BinaryOp.ofSymbol?_symbol] at same
    exact Option.some.inj same
  · rintro rfl
    rfl

theorem BinaryOp.symbol_ne {op : BinaryOp} {text : String} (h : BinaryOp.ofSymbol? text = none) :
    op.symbol ≠ text := by
  rintro rfl
  rw [BinaryOp.ofSymbol?_symbol] at h
  cases h

theorem BinaryOp.ne_symbol {op : BinaryOp} {text : String} (h : BinaryOp.ofSymbol? text = none) :
    text ≠ op.symbol :=
  (BinaryOp.symbol_ne h).symm

theorem DataType.toDiagram_injective {a b : DataType} (h : a.toDiagram = b.toDiagram) : a = b := by
  have same : a.keyword = b.keyword := by simpa [DataType.toDiagram] using h
  have read := congrArg DataType.ofKeyword? same
  rw [DataType.ofKeyword?_keyword, DataType.ofKeyword?_keyword] at read
  exact Option.some.inj read

namespace IncDecOp

/-- The two parts of an increment or decrement, in the order they are written in. -/
theorem diagram_eq (op : IncDecOp) (fixity : Fixity) (operand : Diagram) :
    op.diagram fixity operand = ofSlots "UNARY OPERATION" (match fixity with
      | .before => [some (leaf op.label op.symbol), some operand]
      | .after => [some operand, some (leaf op.label op.symbol)]) := by
  cases fixity <;> rfl

theorem leaf_inj {op op' : IncDecOp} :
    leaf op.label op.symbol = leaf op'.label op'.symbol ↔ op = op' := by
  cases op <;> cases op' <;> simp [label, symbol]

/-- No expression is shown as an operator. -/
theorem leaf_ne (op : IncDecOp) (e : Expr) : leaf op.label op.symbol ≠ e.toDiagram := by
  cases e <;> cases op <;> simp [Expr.toDiagram, diagram_eq, label]

theorem diagram_inj {op op' : IncDecOp} {fixity fixity' : Fixity} {e e' : Expr}
    (h : op.diagram fixity e.toDiagram = op'.diagram fixity' e'.toDiagram) :
    op = op' ∧ fixity = fixity' ∧ e.toDiagram = e'.toDiagram := by
  cases fixity with
  | before =>
    cases fixity' with
    | before => simpa [diagram_eq, slotCount, leaf_inj, -Diagram.leaf.injEq] using h
    | after => simp [diagram_eq, slotCount, leaf_ne, -Diagram.leaf.injEq] at h
  | after =>
    cases fixity' with
    | before =>
      simp only [diagram_eq, slotCount, Diagram.ofSlots_inj] at h
      simp [(leaf_ne _ _).symm] at h
    | after =>
      simp [diagram_eq, slotCount, leaf_inj, -Diagram.leaf.injEq] at h
      exact ⟨h.2, rfl, h.1⟩

end IncDecOp

namespace Dims

theorem toDiagram?_cons_ne_none (dim : Option Expr) (rest : Dims) :
    toDiagram? (dim :: rest) ≠ none := by
  cases dim with
  | none => cases found : toDiagram? rest <;> simp [toDiagram?, found]
  | some size => simp [toDiagram?]

/-- No expression is shown as a chain of dimensions, since the innermost one has no place for
a second child. -/
theorem toDiagram?_ne (dims : Dims) (e : Expr) : toDiagram? dims ≠ some e.toDiagram := by
  induction dims generalizing e with
  | nil => simp [toDiagram?]
  | cons dim rest ih =>
    cases dim with
    | none =>
      cases found : toDiagram? rest with
      | none =>
        cases e <;> simp [toDiagram?, found, Expr.toDiagram, IncDecOp.diagram_eq]
      | some inner =>
        cases e <;> simp (disch := decide) [toDiagram?, found, Expr.toDiagram,
          IncDecOp.diagram_eq, slotCount, BinaryOp.ne_symbol]
    | some size =>
      cases e with
      | index base inside =>
        intro h
        simp [toDiagram?, Expr.toDiagram, slotCount] at h
        exact ih inside h.2
      | _ => simp (disch := decide) [toDiagram?, Expr.toDiagram, IncDecOp.diagram_eq,
          BinaryOp.ne_symbol]

theorem toDiagram?_none_inj {rest rest' : Dims}
    (h : toDiagram? (none :: rest) = toDiagram? (none :: rest')) :
    toDiagram? rest = toDiagram? rest' := by
  cases found : toDiagram? rest with
  | none =>
    cases found' : toDiagram? rest' with
    | none => rfl
    | some inner => simp [toDiagram?, found, found'] at h
  | some inner =>
    cases found' : toDiagram? rest' with
    | none => simp [toDiagram?, found, found'] at h
    | some inner' => simpa [toDiagram?, found, found', slotCount] using h

theorem toDiagram?_none_ne_some (rest rest' : Dims) (size : Expr) :
    toDiagram? (none :: rest) ≠ toDiagram? (some size :: rest') := by
  cases found : toDiagram? rest with
  | none => simp [toDiagram?, found]
  | some inner =>
    intro h
    simp [toDiagram?, found, slotCount] at h
    exact toDiagram?_ne rest size (found.trans (congrArg some h.1))

end Dims

mutual

theorem Expr.toDiagram_injective {a b : Expr} (h : a.toDiagram = b.toDiagram) : a = b := by
  cases a with
  | number text =>
    cases b with
    | number => simpa [Expr.toDiagram] using h
    | _ => simp [Expr.toDiagram, IncDecOp.diagram_eq] at h
  | ident name =>
    cases b with
    | ident => simpa [Expr.toDiagram] using h
    | _ => simp [Expr.toDiagram, IncDecOp.diagram_eq] at h
  | str text =>
    cases b with
    | str => simpa [Expr.toDiagram] using h
    | _ => simp [Expr.toDiagram, IncDecOp.diagram_eq] at h
  | binary op lhs rhs =>
    cases b with
    | binary op' lhs' rhs' =>
      simp [Expr.toDiagram, slotCount] at h
      obtain ⟨rfl, left, right⟩ := h
      rw [Expr.toDiagram_injective left, Expr.toDiagram_injective right]
    | _ => simp (disch := decide) [Expr.toDiagram, IncDecOp.diagram_eq, BinaryOp.symbol_ne] at h
  | index base inside =>
    cases b with
    | index base' inside' =>
      simp [Expr.toDiagram, slotCount] at h
      rw [Expr.toDiagram_injective h.1, Expr.toDiagram_injective h.2]
    | _ => simp (disch := decide) [Expr.toDiagram, IncDecOp.diagram_eq, BinaryOp.ne_symbol] at h
  | new type dims =>
    cases b with
    | new type' dims' =>
      simp [Expr.toDiagram, slotCount] at h
      rw [DataType.toDiagram_injective h.1,
        Dims.toDiagram?_injective (Diagram.toList_inj.mp h.2)]
    | _ => simp (disch := decide) [Expr.toDiagram, IncDecOp.diagram_eq, BinaryOp.ne_symbol] at h
  | incDec op fixity operand =>
    cases b with
    | incDec op' fixity' operand' =>
      simp only [Expr.toDiagram] at h
      obtain ⟨rfl, rfl, same⟩ := IncDecOp.diagram_inj h
      rw [Expr.toDiagram_injective same]
    | _ => simp (disch := decide) [Expr.toDiagram, IncDecOp.diagram_eq, BinaryOp.ne_symbol] at h

theorem Dims.toDiagram?_injective {a b : List (Option Expr)}
    (h : Dims.toDiagram? a = Dims.toDiagram? b) : a = b := by
  cases a with
  | nil =>
    cases b with
    | nil => rfl
    | cons dim rest => exact absurd h.symm (Dims.toDiagram?_cons_ne_none dim rest)
  | cons dim rest =>
    cases b with
    | nil => exact absurd h (Dims.toDiagram?_cons_ne_none dim rest)
    | cons dim' rest' =>
      cases dim with
      | none =>
        cases dim' with
        | none => rw [Dims.toDiagram?_injective (Dims.toDiagram?_none_inj h)]
        | some size => exact absurd h (Dims.toDiagram?_none_ne_some rest rest' size)
      | some size =>
        cases dim' with
        | none => exact absurd h.symm (Dims.toDiagram?_none_ne_some rest' rest size)
        | some size' =>
          simp [Dims.toDiagram?, slotCount] at h
          rw [Expr.toDiagram_injective h.1,
            Dims.toDiagram?_injective (Diagram.toList_inj.mp h.2)]

end

end SyntaxTree
