import SyntaxTree.Proofs.Leaves.Expr

/-!
# The leaves of declarations, assignments and loop headers

What stands between the parts of a clause has no leaf, so a clause yields the
leaves of its parts one after the other. Only behind the type of an array does the
order of writing not count, and both writings yield the name before the dimensions.
-/

namespace SyntaxTree

open Lexeme
open Diagram (leafLexemes leafLexemes? leafLexemes_ofSlots slotCount)

section Lists

variable {α : Type} {written : α → List Lexeme → Prop} {ts : List Lexeme}

/-- Commas have no leaves. -/
theorem WrittenList.yields (toDiagram : α → Diagram) {items : List α}
    (h : WrittenList written items ts)
    (item : ∀ a ∈ items, ∀ us, written a us → Yields us (toDiagram a).leafLexemes) :
    Yields ts (items.flatMap fun a => (toDiagram a).leafLexemes) := by
  induction h with
  | last first => simpa using item _ List.mem_cons_self _ first
  | more first _ ih =>
    have rest := ih fun a mem => item a (List.mem_cons_of_mem _ mem)
    rw [List.flatMap_cons]
    exact (item _ List.mem_cons_self _ first).append (.dropped (by decide) rest)

/-- An absent part has no lexemes and no leaves. -/
theorem WrittenOption.yields (toDiagram : α → Diagram) {part : Option α}
    (h : WrittenOption written part ts)
    (each : ∀ a ∈ part, ∀ us, written a us → Yields us (toDiagram a).leafLexemes) :
    Yields ts (leafLexemes? (part.map toDiagram)) := by
  cases part with
  | none =>
    obtain rfl : ts = [] := h
    exact .nil
  | some a => simpa using each a rfl ts h

end Lists

theorem IncDec.Written.yields {step : IncDec} {ts : List Lexeme} (h : step.Written ts)
    (sound : step.isWellFormed = true) : Yields ts step.toDiagram.leafLexemes := by
  obtain ⟨us, place, rfl⟩ := h
  simp only [isWellFormed, toExpr, Expr.isWellFormed, Bool.and_eq_true] at sound
  rw [toDiagram, IncDecOp.leafLexemes_diagram]
  exact step.op.yields step.fixity (place.yields sound.2)

namespace Declarator

theorem leafLexemes_toDiagram (d : Declarator) : d.toDiagram.leafLexemes =
    d.name.toList :: leafLexemes? (d.init.map Expr.toDiagram) := by
  cases init : d.init <;> simp [toDiagram, init, leafLexemes_ofSlots, slotCount]

theorem leafLexemes?_continued (ds : List Declarator) :
    leafLexemes? (continued ds) = ds.flatMap fun d => d.toDiagram.leafLexemes := by
  induction ds with
  | nil => rfl
  | cons d rest ih => simp [continued, leafLexemes_ofSlots, slotCount, ih]

/-- Whatever is declared first, its name is the first lexeme. -/
theorem head_of_written {ds : List Declarator} {ts : List Lexeme} (h : WrittenList Written ds ts) :
    ∃ d ∈ ds, ∃ us, ts = d.name.toList :: us := by
  cases h with
  | last first => cases first <;> exact ⟨_, List.mem_cons_self, _, rfl⟩
  | more first _ => cases first <;> exact ⟨_, List.mem_cons_self, _, rfl⟩

theorem Written.yields {d : Declarator} {ts : List Lexeme} (h : d.Written ts)
    (sound : d.isWellFormed = true) : Yields ts d.toDiagram.leafLexemes := by
  rw [isWellFormed, Bool.and_eq_true] at sound
  rw [leafLexemes_toDiagram]
  cases h with
  | bare name => exact .name sound.1 .nil
  | init name value => simpa using Yields.name sound.1 (.dropped (by decide) (value.yields sound.2))

end Declarator

namespace VarDecl

theorem leafLexemes_toDiagram (decl : VarDecl) : decl.toDiagram.leafLexemes =
    decl.type.keyword.toList :: decl.declarators.flatMap fun d => d.toDiagram.leafLexemes := by
  obtain ⟨type, declarators⟩ := decl
  rcases declarators with _ | ⟨⟨name, _ | value⟩, rest⟩ <;>
    simp [toDiagram, leafLexemes_ofSlots, slotCount, Declarator.leafLexemes_toDiagram,
      Declarator.leafLexemes?_continued]

/-- The declarators begin with a name, so nothing behind the type is out of its place. -/
theorem Written.yields {decl : VarDecl} {ts : List Lexeme} (h : decl.Written ts)
    (sound : decl.isWellFormed = true) : Yields ts decl.toDiagram.leafLexemes := by
  obtain ⟨us, declarators, rfl⟩ := h
  rw [isWellFormed, Bool.and_eq_true] at sound
  have each : ∀ d ∈ decl.declarators, d.isWellFormed = true := List.all_eq_true.mp sound.2
  have inside := declarators.yields Declarator.toDiagram
    fun d mem us written => written.yields (each d mem)
  obtain ⟨first, mem, rest, rfl⟩ := Declarator.head_of_written declarators
  have named := each first mem
  rw [Declarator.isWellFormed, Bool.and_eq_true] at named
  rw [leafLexemes_toDiagram]
  exact .type decl.type (ne_bracket_of_isName named.1) inside

end VarDecl

namespace ArrayDecl

theorem Written.yields {decl : ArrayDecl} {ts : List Lexeme} (h : decl.Written ts)
    (sound : decl.isWellFormed = true) : Yields ts decl.toDiagram.leafLexemes := by
  simp only [isWellFormed, Dims.isWellFormed, Bool.and_eq_true] at sound
  have shown : decl.toDiagram.leafLexemes =
      decl.type.keyword.toList :: decl.name.toList :: leafLexemes? (Dims.toDiagram? decl.dims) := by
    simp [toDiagram, leafLexemes_ofSlots, slotCount]
  rw [shown]
  obtain ⟨us, dims, rfl | rfl⟩ := h
  · exact .type decl.type (ne_bracket_of_isName sound.1.2) (.name sound.1.2 (dims.yields sound.2.2))
  · exact dims.yields_behind sound.2.2 sound.1.1 sound.1.2

end ArrayDecl

namespace ArrayInitializer

theorem leafLexemes_elements (first : Expr) (rest : List Expr) :
    (elements first rest).leafLexemes =
      (first :: rest).flatMap fun e => e.toDiagram.leafLexemes := by
  induction rest generalizing first with
  | nil => simp [elements]
  | cons next rest ih => simp [elements, leafLexemes_ofSlots, slotCount, ih]

theorem Written.yields {init : ArrayInitializer} {ts : List Lexeme} (h : init.Written ts)
    (sound : init.isWellFormed = true) : Yields ts init.toDiagram.leafLexemes := by
  cases h with
  | @list first rest ts elements =>
    rw [isWellFormed, Bool.and_eq_true] at sound
    have each : ∀ e ∈ first :: rest, e.isWellFormed = true :=
      List.forall_mem_cons.mpr ⟨sound.1, List.all_eq_true.mp sound.2⟩
    have inside := elements.yields Expr.toDiagram
      fun e mem us written => written.yields (each e mem)
    have closed : Yields ["\x7d".toList] [] := .dropped (by decide) .nil
    rw [toDiagram, leafLexemes_elements]
    simpa using (Yields.dropped (by decide) inside).append closed
  | new type sizes =>
    exact (Expr.Written.new (Nat.zero_le 6) sizes).yields sound

end ArrayInitializer

theorem ArrayInit.Written.yields {init : ArrayInit} {ts : List Lexeme} (h : init.Written ts)
    (sound : init.isWellFormed = true) : Yields ts init.toDiagram.leafLexemes := by
  obtain ⟨us, vs, decl, value, rfl⟩ := h
  rw [isWellFormed, Bool.and_eq_true] at sound
  simpa [toDiagram, leafLexemes_ofSlots, slotCount] using
    (decl.yields sound.1).append (.dropped (by decide) (value.yields sound.2))

theorem Assignment.Written.yields {a : Assignment} {ts : List Lexeme} (h : a.Written ts)
    (sound : a.isWellFormed = true) : Yields ts a.toDiagram.leafLexemes := by
  obtain ⟨us, vs, target, value, rfl⟩ := h
  simp only [isWellFormed, Bool.and_eq_true] at sound
  have symbol : (isPlain a.op.symbol.toList && !isKept a.op.symbol.toList) = true := by
    cases a.op <;> decide
  simpa [toDiagram, leafLexemes_ofSlots, slotCount] using
    (target.yields sound.1.2).append (.dropped symbol (value.yields sound.2))

theorem ForInit.Written.yields {init : ForInit} {ts : List Lexeme} (h : init.Written ts)
    (sound : init.isWellFormed = true) : Yields ts init.toDiagram.leafLexemes := by
  cases init with
  | declaration decl => exact VarDecl.Written.yields h sound
  | assignment a => exact Assignment.Written.yields h sound

theorem ForUpdate.Written.yields {update : ForUpdate} {ts : List Lexeme} (h : update.Written ts)
    (sound : update.isWellFormed = true) : Yields ts update.toDiagram.leafLexemes := by
  cases update with
  | incDec step => exact IncDec.Written.yields h sound
  | assignment a => exact Assignment.Written.yields h sound

theorem ForClauses.Written.yields {clauses : ForClauses} {ts : List Lexeme}
    (h : clauses.Written ts) (sound : clauses.isWellFormed = true) :
    Yields ts clauses.toDiagram.leafLexemes := by
  obtain ⟨us, vs, ws, init, condition, update, rfl⟩ := h
  simp only [isWellFormed, Bool.and_eq_true, Option.all_eq_true] at sound
  have inits := init.yields ForInit.toDiagram
    fun a mem us written => written.yields (sound.1.1 a mem)
  have conditions := condition.yields Expr.toDiagram
    fun a mem us written => written.yields (sound.1.2 a mem)
  have updates := update.yields ForUpdate.toDiagram
    fun a mem us written => written.yields (sound.2 a mem)
  have closed : Yields [")".toList] [] := .dropped (by decide) .nil
  simpa [toDiagram, leafLexemes_ofSlots, slotCount] using
    (((Yields.dropped (by decide) inits).append (.dropped (by decide) conditions)).append
      (.dropped (by decide) updates)).append closed

theorem Declaration.Written.yields {decl : Declaration} {ts : List Lexeme} (h : decl.Written ts)
    (sound : decl.isWellFormed = true) : Yields ts decl.toDiagram.leafLexemes := by
  rcases decl with decl | decl
  · simpa [toDiagram, leafLexemes_ofSlots, slotCount] using VarDecl.Written.yields h sound
  · simpa [toDiagram, leafLexemes_ofSlots, slotCount] using ArrayDecl.Written.yields h sound

theorem Initialization.Written.yields {init : Initialization} {ts : List Lexeme}
    (h : init.Written ts) (sound : init.isWellFormed = true) :
    Yields ts init.toDiagram.leafLexemes := by
  rcases init with a | init
  · simpa [toDiagram, leafLexemes_ofSlots, slotCount] using Assignment.Written.yields h sound
  · simpa [toDiagram, leafLexemes_ofSlots, slotCount] using ArrayInit.Written.yields h sound

end SyntaxTree
