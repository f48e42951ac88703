import SyntaxTree.Proofs.Diagram.Expr
import SyntaxTree.Proofs.Leaves.Basic
import SyntaxTree.Proofs.Writing.Basic

/-!
# The leaves of an expression

A writing of an expression yields the leaves of its diagram in the order in which
they are written, since parentheses, operators and the brackets of indices and
dimensions leave no trace but the shape of the diagram.
-/

namespace SyntaxTree

open Lexeme

namespace Diagram

/-- What a leaf shows of the source. The bracket of a dimension without a size is no lexeme,
and the type of an array parameter is shown with its brackets. -/
def leafLexeme : String × String → Option Lexeme
  | ("bracket", _) => none
  | ("datatype", value) => some (value.toList.takeWhile fun c => c != '[')
  | (_, value) => some value.toList

/-- What the leaves of a diagram show of the source, from left to right. -/
def leafLexemes (d : Diagram) : List Lexeme := d.leaves.filterMap leafLexeme

def leafLexemes? (slot : Option Diagram) : List Lexeme := slot.toList.flatMap leafLexemes

@[simp] theorem leafLexemes?_none : leafLexemes? none = [] := rfl

@[simp] theorem leafLexemes?_some (d : Diagram) : leafLexemes? (some d) = d.leafLexemes := by
  simp [leafLexemes?]

@[simp] theorem leafLexemes_leaf (label value : String) :
    (leaf label value).leafLexemes = (leafLexeme (label, value)).toList := by
  rw [leafLexemes, leaves, List.filterMap_cons, List.filterMap_nil]
  cases leafLexeme (label, value) <;> rfl

@[simp] theorem leafLexeme_id (name : String) : leafLexeme ("id", name) = some name.toList := rfl

/-- The leaves of a branch are those of its slots. -/
theorem leafLexemes_ofSlots (label : String) (slots : List (Option Diagram)) :
    (ofSlots label slots).leafLexemes = (slots.take slotCount).flatMap leafLexemes? := by
  rw [ofSlots_eq, leafLexemes, leaves, leavesAll_eq_flatMap, List.filterMap_flatMap,
    List.flatMap_assoc]
  rfl

end Diagram

open Diagram (leafLexeme leafLexemes? leafLexemes_ofSlots slotCount)

@[simp] theorem DataType.leafLexemes_toDiagram (type : DataType) :
    type.toDiagram.leafLexemes = [type.keyword.toList] := by
  cases type <;> simp [toDiagram, leafLexeme, keyword]

theorem IncDecOp.leafLexemes_diagram (op : IncDecOp) (fixity : Fixity) (operand : Diagram) :
    (op.diagram fixity operand).leafLexemes = op.lexemes fixity operand.leafLexemes := by
  cases fixity <;> cases op <;>
    simp [diagram, lexemes, leafLexemes_ofSlots, slotCount, label, leafLexeme]

theorem IncDecOp.yields (op : IncDecOp) (fixity : Fixity) {ts ls : List Lexeme}
    (operand : Yields ts ls) : Yields (op.lexemes fixity ts) (op.lexemes fixity ls) := by
  cases fixity with
  | before => exact .step op operand
  | after => exact operand.append (.step op .nil)

theorem BinaryOp.yields (op : BinaryOp) {ts ls : List Lexeme} (rhs : Yields ts ls) :
    Yields (op.symbol.toList :: ts) ls :=
  .dropped (by cases op <;> decide) rhs

namespace Dims

variable {dims : Dims} {ts us : List Lexeme}

/-- The leaves of a dimension's size come before those of the dimensions inside. -/
theorem leafLexemes?_cons (dim : Option Expr) (rest : Dims) :
    leafLexemes? (toDiagram? (dim :: rest)) =
      leafLexemes? (dim.map Expr.toDiagram) ++ leafLexemes? (toDiagram? rest) := by
  cases dim with
  | none =>
    cases inner : toDiagram? rest <;>
      simp [toDiagram?, inner, leafLexeme, leafLexemes_ofSlots, slotCount]
  | some size => simp [toDiagram?, leafLexemes_ofSlots, slotCount]

/-- A dimension is the rest behind its brackets, with its size in them. -/
theorem yields_cons (dim : Option Expr) {rest : Dims}
    (size : Yields ts (leafLexemes? (dim.map Expr.toDiagram)))
    (others : Yields us (leafLexemes? (toDiagram? rest))) :
    Yields ("[".toList :: ts ++ "]".toList :: us) (leafLexemes? (toDiagram? (dim :: rest))) := by
  rw [leafLexemes?_cons]
  exact (Yields.dropped (by decide) size).append (.dropped (by decide) others)

namespace Written

theorem yields (h : Written dims ts) (sound : dims.all Expr.isSize = true) :
    Yields ts (leafLexemes? (toDiagram? dims)) := by
  induction h with
  | nil => exact .nil
  | blank _ ih => exact yields_cons none .nil (ih sound)
  | number text _ ih =>
    rw [List.all_cons, Bool.and_eq_true] at sound
    have digits : number? text.toList = some text.toList := eq_of_beq sound.1
    have size : Yields [text.toList] (Expr.number text).toDiagram.leafLexemes := by
      simpa [Expr.toDiagram, leafLexeme] using Yields.number digits .nil
    exact yields_cons (some (.number text)) (by simpa using size) (ih sound.2)
  | ident name _ ih =>
    rw [List.all_cons, Bool.and_eq_true] at sound
    have size : Yields [name.toList] (Expr.ident name).toDiagram.leafLexemes := by
      simpa [Expr.toDiagram] using Yields.name sound.1 .nil
    exact yields_cons (some (.ident name)) (by simpa using size) (ih sound.2)

/-- The dimensions of an array are the brackets in front of whatever comes behind them. -/
theorem brackets (h : Written dims ts) (sound : dims.all Expr.isSize = true)
    (head : us.head? ≠ some ['[']) : brackets (ts ++ us) = (ts, us) := by
  have sized {t : Lexeme} (other : t ≠ [']']) (ts : List Lexeme) :
      Lexeme.brackets (['['] :: t :: [']'] :: ts) =
        (['['] :: t :: [']'] :: (Lexeme.brackets ts).1, (Lexeme.brackets ts).2) := by
    rw [Lexeme.brackets]
    exact other
  induction h with
  | nil => exact brackets_of_head head
  | @blank _ ts _ ih =>
    change Lexeme.brackets (['['] :: [']'] :: (ts ++ us)) = _
    rw [Lexeme.brackets, ih sound]
    rfl
  | @number _ ts text _ ih =>
    rw [List.all_cons, Bool.and_eq_true] at sound
    have digits : number? text.toList = some text.toList := eq_of_beq sound.1
    change Lexeme.brackets (['['] :: text.toList :: [']'] :: (ts ++ us)) = _
    rw [sized (fun same => by rw [same] at digits; cases digits), ih sound.2]
    rfl
  | @ident _ ts name _ ih =>
    rw [List.all_cons, Bool.and_eq_true] at sound
    have named : isName name.toList = true := sound.1
    change Lexeme.brackets (['['] :: name.toList :: [']'] :: (ts ++ us)) = _
    rw [sized (fun same => by rw [same] at named; cases named), ih sound.2]
    rfl

/-- A name behind the dimensions of an array comes to the front. -/
theorem hoist (h : Written dims ts) (sound : dims.all Expr.isSize = true) {name : Lexeme}
    (named : isName name = true) : hoist (ts ++ name :: us) = name :: ts ++ us := by
  have head : (name :: us).head? ≠ some ['['] :=
    fun same => ne_bracket_of_isName named (Option.some_inj.mp same)
  rw [Lexeme.hoist, h.brackets sound head]
  simp [named]

/-- The name of an array comes next to its type, although its dimensions stand between them. -/
theorem yields_behind (h : Written dims ts) (sound : dims.all Expr.isSize = true)
    {type : DataType} (typed : type.isWellFormed = true) {name : Lexeme}
    (named : isName name = true) :
    Yields (type.keyword.toList :: ts ++ [name])
      (type.keyword.toList :: name :: leafLexemes? (toDiagram? dims)) := by
  intro us
  have order := (Yields.name named (h.yields sound)) us
  rw [List.append_assoc, List.cons_append, leafOrder_type typed, List.singleton_append,
    h.hoist sound named, order]
  rfl

end Written

end Dims

/-- The leaves of an expression are its lexemes in the order in which they are written. -/
theorem Expr.Written.yields {k : Nat} {e : Expr} {ts : List Lexeme} (h : Expr.Written k e ts)
    (sound : e.isWellFormed = true) : Yields ts e.toDiagram.leafLexemes := by
  induction h with
  | number text _ =>
    simpa [Expr.toDiagram, leafLexeme] using Yields.number (eq_of_beq sound) .nil
  | str text _ =>
    simpa [Expr.toDiagram, leafLexeme] using Yields.string (eq_of_beq sound)
  | ident name _ =>
    simpa [Expr.toDiagram] using Yields.name sound .nil
  | index _ _ _ front inside =>
    simp only [Expr.isWellFormed, Bool.and_eq_true] at sound
    have closed : Yields ["]".toList] [] := .dropped (by decide) .nil
    simpa [Expr.toDiagram, leafLexemes_ofSlots, slotCount] using
      ((front sound.1.2).append (.dropped (by decide) (inside sound.2))).append closed
  | incDec _ _ place =>
    simp only [Expr.isWellFormed, Bool.and_eq_true] at sound
    rw [Expr.toDiagram, IncDecOp.leafLexemes_diagram]
    exact IncDecOp.yields _ _ (place sound.2)
  | new _ sizes =>
    simp only [Expr.isWellFormed, Dims.isWellFormed, Bool.and_eq_true] at sound
    simpa [Expr.toDiagram, leafLexemes_ofSlots, slotCount] using
      Yields.new _ (sizes.yields sound.2.2)
  | binary _ _ _ left right =>
    simp only [Expr.isWellFormed, Bool.and_eq_true] at sound
    simpa [Expr.toDiagram, leafLexemes_ofSlots, slotCount] using
      (left sound.1).append (BinaryOp.yields _ (right sound.2))
  | enclosed _ _ inside =>
    have closed : Yields [")".toList] [] := .dropped (by decide) .nil
    simpa using (Yields.dropped (by decide) (inside sound)).append closed

end SyntaxTree
