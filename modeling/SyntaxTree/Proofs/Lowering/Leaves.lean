import SyntaxTree.Proofs.Diagram.Expr
import SyntaxTree.Proofs.Drawing.Lines
import SyntaxTree.Proofs.Lowering.Parts

/-!
# A diagram shows all parts, each of them once

The leaves of a diagram are the parts of what it is made from, in the order of the
fields. Statements, declarators, dimensions and list elements each lean to the right
in their own way, and a statement holds what follows it behind its own blocks, but
from left to right the order stays the same.

A branch has four slots and drops what is handed to it beyond them. Nothing ever is,
so no leaf is missing, and no branch either.
-/

namespace SyntaxTree

namespace Diagram

/-- The leaves of a slot that may be empty. -/
def leaves? (slot : Option Diagram) : List Part := slot.elim [] leaves

@[simp] theorem leaves?_none : leaves? none = [] := rfl

@[simp] theorem leaves?_some (d : Diagram) : leaves? (some d) = d.leaves := rfl

theorem leaves?_map {α : Type} (toDiagram : α → Diagram) (field : Option α) :
    leaves? (field.map toDiagram) = optionParts (fun a => (toDiagram a).leaves) field := by
  cases field <;> rfl

@[simp] theorem leaves_leaf (label value : String) : (leaf label value).leaves = [(label, value)] := by
  rw [leaves]

/-- The leaves of a branch are those of its slots, if there are no more than it can hold. -/
theorem leaves_ofSlots (label : String) {slots : List (Option Diagram)}
    (fits : slots.drop slotCount = []) : (ofSlots label slots).leaves = slots.flatMap leaves? := by
  have all := List.take_of_length_le (List.drop_eq_nil_iff.mp fits)
  rw [ofSlots_eq, leaves, leavesAll_eq_flatMap, all, List.flatMap_assoc]
  congr 1
  funext slot
  cases slot <;> simp

/-- The nodes of a slot that may be empty. -/
def size? (slot : Option Diagram) : Nat := slot.elim 0 size

@[simp] theorem size?_none : size? none = 0 := rfl

@[simp] theorem size?_some (d : Diagram) : size? (some d) = d.size := rfl

theorem size?_map {α : Type} (toDiagram : α → Diagram) (field : Option α) :
    size? (field.map toDiagram) = optionNodes (fun a => (toDiagram a).size) field := by
  cases field <;> rfl

@[simp] theorem size_leaf (label value : String) : (leaf label value).size = 1 := by
  rw [size]

/-- A branch is a node with those of its slots below, if there are no more than it can hold. -/
theorem size_ofSlots (label : String) {slots : List (Option Diagram)}
    (fits : slots.drop slotCount = []) : (ofSlots label slots).size = 1 + (slots.map size?).sum := by
  have all := List.take_of_length_le (List.drop_eq_nil_iff.mp fits)
  rw [ofSlots_eq, size, all]
  congr 1
  clear fits all
  induction slots with
  | nil => simp [sizeAll]
  | cons slot rest ih => cases slot <;> simp [sizeAll, ih]

end Diagram

open Diagram (leaf ofSlots leaves? leaves?_map leaves_ofSlots size? size?_map size_ofSlots slotCount)

/-! ## Expressions -/

theorem DataType.leaves_toDiagram (type : DataType) : type.toDiagram.leaves = [type.part] := by
  rw [toDiagram, Diagram.leaves_leaf]
  rfl

theorem DataType.size_toDiagram (type : DataType) : type.toDiagram.size = 1 := by
  rw [toDiagram, Diagram.size_leaf]

theorem IncDecOp.leaves_diagram (op : IncDecOp) (fixity : Fixity) (operand : Diagram) :
    (op.diagram fixity operand).leaves = op.parts fixity operand.leaves := by
  cases fixity <;> simp [diagram, parts, part, leaves_ofSlots, slotCount]

theorem IncDecOp.size_diagram (op : IncDecOp) (fixity : Fixity) (operand : Diagram) :
    (op.diagram fixity operand).size = 2 + operand.size := by
  cases fixity <;> simp [diagram, size_ofSlots, slotCount] <;> omega

mutual

theorem Expr.leaves_toDiagram (e : Expr) : e.toDiagram.leaves = e.parts := by
  cases e with
  | number text => rw [Expr.toDiagram, Expr.parts, Diagram.leaves_leaf]
  | ident name => rw [Expr.toDiagram, Expr.parts, Diagram.leaves_leaf]
  | str text => rw [Expr.toDiagram, Expr.parts, Diagram.leaves_leaf]
  | binary op lhs rhs =>
    have left := lhs.leaves_toDiagram
    have right := rhs.leaves_toDiagram
    simp [Expr.toDiagram, Expr.parts, leaves_ofSlots, slotCount, left, right]
  | index base inside =>
    have front := base.leaves_toDiagram
    have back := inside.leaves_toDiagram
    simp [Expr.toDiagram, Expr.parts, leaves_ofSlots, slotCount, front, back]
  | new type dims =>
    have sizes := Dims.leaves_toDiagram? dims
    simp [Expr.toDiagram, Expr.parts, leaves_ofSlots, slotCount, type.leaves_toDiagram, sizes]
  | incDec op fixity operand =>
    rw [Expr.toDiagram, IncDecOp.leaves_diagram, operand.leaves_toDiagram, Expr.parts]

/-- The sizes come one after the other, and only the last dimension shows that it has none. -/
theorem Dims.leaves_toDiagram? (dims : List (Option Expr)) :
    leaves? (Dims.toDiagram? dims) = Dims.sizes dims ++ Dims.openEnd dims := by
  cases dims with
  | nil => simp [Dims.toDiagram?, Dims.sizes, Dims.openEnd]
  | cons dim rest =>
    have others := Dims.leaves_toDiagram? rest
    cases dim with
    | none =>
      cases rest with
      | nil => simp [Dims.toDiagram?, Dims.sizes, Dims.openEnd]
      | cons next rest =>
        obtain ⟨inner, found⟩ :=
          Option.ne_none_iff_exists'.mp (Dims.toDiagram?_cons_ne_none next rest)
        have last : Dims.openEnd (none :: next :: rest) = Dims.openEnd (next :: rest) := rfl
        rw [found, Diagram.leaves?_some] at others
        rw [Dims.toDiagram?, found, Dims.sizes, last]
        simp [leaves_ofSlots, slotCount, others]
    | some size =>
      have first := size.leaves_toDiagram
      have last : Dims.openEnd (some size :: rest) = Dims.openEnd rest := by
        cases rest <;> rfl
      simp [Dims.toDiagram?, Dims.sizes, leaves_ofSlots, slotCount, first, others, last]

end

mutual

theorem Expr.size_toDiagram (e : Expr) : e.toDiagram.size = e.nodes := by
  cases e with
  | number text => rw [Expr.toDiagram, Expr.nodes, Diagram.size_leaf]
  | ident name => rw [Expr.toDiagram, Expr.nodes, Diagram.size_leaf]
  | str text => rw [Expr.toDiagram, Expr.nodes, Diagram.size_leaf]
  | binary op lhs rhs =>
    have left := lhs.size_toDiagram
    have right := rhs.size_toDiagram
    simp [Expr.toDiagram, Expr.nodes, size_ofSlots, slotCount, left, right, Nat.add_assoc]
  | index base inside =>
    have front := base.size_toDiagram
    have back := inside.size_toDiagram
    simp [Expr.toDiagram, Expr.nodes, size_ofSlots, slotCount, front, back, Nat.add_assoc]
  | new type dims =>
    have sizes := Dims.size_toDiagram? dims
    simp [Expr.toDiagram, Expr.nodes, size_ofSlots, slotCount, type.size_toDiagram, sizes]
    omega
  | incDec op fixity operand =>
    rw [Expr.toDiagram, IncDecOp.size_diagram, operand.size_toDiagram, Expr.nodes]

theorem Dims.size_toDiagram? (dims : List (Option Expr)) :
    size? (Dims.toDiagram? dims) = Dims.nodes dims := by
  cases dims with
  | nil => simp [Dims.toDiagram?, Dims.nodes]
  | cons dim rest =>
    have others := Dims.size_toDiagram? rest
    cases dim with
    | none =>
      cases found : Dims.toDiagram? rest with
      | none =>
        rw [found, Diagram.size?_none] at others
        simp [Dims.toDiagram?, found, Dims.nodes, ← others]
      | some inner =>
        rw [found, Diagram.size?_some] at others
        simp [Dims.toDiagram?, found, Dims.nodes, size_ofSlots, slotCount, others]
    | some size =>
      have first := size.size_toDiagram
      simp [Dims.toDiagram?, Dims.nodes, size_ofSlots, slotCount, first, others, Nat.add_assoc]

end

theorem IncDec.leaves_toDiagram (step : IncDec) : step.toDiagram.leaves = step.parts := by
  rw [toDiagram, IncDecOp.leaves_diagram, step.operand.leaves_toDiagram, parts]

theorem IncDec.size_toDiagram (step : IncDec) : step.toDiagram.size = step.nodes := by
  rw [toDiagram, IncDecOp.size_diagram, step.operand.size_toDiagram, nodes]

end SyntaxTree
