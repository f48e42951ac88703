import SyntaxTree.Proofs.Leaves.Clause
import SyntaxTree.Proofs.Soundness.Source

/-!
# The leaves of an accepted source

The diagram of an accepted source has as its leaves the names, numbers, string
literals, types, modifiers and steps of the source, each of them once. They stand
in the order of the source except that the name of an array comes before its
dimensions, also where the source has it behind them.
-/

namespace SyntaxTree

open Lexeme
open Diagram (ofSlots leafLexemes leafLexemes? leafLexemes_ofSlots leafLexeme slotCount)

theorem Expr.WrittenTest.yields {condition : Expr} {ts : List Lexeme}
    (h : condition.WrittenTest ts) (sound : condition.isWellFormed = true) :
    Yields ts condition.toDiagram.leafLexemes := by
  obtain ⟨us, written, rfl⟩ := h
  exact (Expr.Written.enclosed (Nat.zero_le 6) written).yields sound

namespace Block

variable {ts us ls ms : List Lexeme}

/-- A block in braces, and what follows behind it. -/
theorem yields_braced (inside : Yields ts ls) (behind : Yields us ms) :
    Yields ("\x7b".toList :: ts ++ "\x7d".toList :: us) (ls ++ ms) :=
  (Yields.dropped (by decide) inside).append (.dropped (by decide) behind)

/-- A statement of one part, and what follows it in its block. -/
theorem yields_part (label : String) {part : Diagram} {following : Option Diagram}
    (front : Yields ts part.leafLexemes) (behind : Yields us (leafLexemes? following)) :
    Yields (ts ++ ";".toList :: us) (leafLexemes? (some (ofSlots label [part, following]))) := by
  simpa [leafLexemes_ofSlots, slotCount] using front.append (.dropped (by decide) behind)

theorem Written.yields {b : Block} (h : Written b ts) (sound : isWellFormed b = true) :
    Yields ts (leafLexemes? (toDiagram? b)) := by
  induction h with
  | nil => exact .nil
  | declaration first _ others =>
    rw [isWellFormed, Bool.and_eq_true] at sound
    exact yields_part "DECLARATION" (first.yields sound.1) (others sound.2)
  | initialization first _ others =>
    rw [isWellFormed, Bool.and_eq_true] at sound
    exact yields_part "INITIALIZATION" (first.yields sound.1) (others sound.2)
  | step first _ others =>
    rw [isWellFormed, Bool.and_eq_true] at sound
    exact yields_part "STATEMENT" (first.yields sound.1) (others sound.2)
  | ifThen test _ _ inside others =>
    simp only [isWellFormed, Stmt.isWellFormed, Bool.and_eq_true] at sound
    have body := yields_braced (inside sound.1.2) (others sound.2)
    simpa [toDiagram?, Stmt.toDiagram, leafLexemes_ofSlots, slotCount] using
      (Yields.dropped (by decide) (test.yields sound.1.1)).append body
  | ifElse test _ _ _ inside inside' others =>
    simp only [isWellFormed, Stmt.isWellFormed, Bool.and_eq_true] at sound
    have alternative := yields_braced (inside' sound.1.2) (others sound.2)
    have behind := Yields.dropped (t := "else".toList) (by decide) alternative
    have body := yields_braced (inside sound.1.1.2) behind
    simpa [toDiagram?, Stmt.toDiagram, leafLexemes_ofSlots, slotCount] using
      (Yields.dropped (by decide) (test.yields sound.1.1.1)).append body
  | forLoop header _ _ inside others =>
    simp only [isWellFormed, Stmt.isWellFormed, Bool.and_eq_true] at sound
    have body := yields_braced (inside sound.1.2) (others sound.2)
    simpa [toDiagram?, Stmt.toDiagram, leafLexemes_ofSlots, slotCount] using
      (Yields.dropped (by decide) (header.yields sound.1.1)).append body

end Block

theorem Modifier.yields (m : Modifier) : Yields m.lexemes m.toDiagram.leafLexemes := by
  have access : Yields [m.access.keyword.toList] [m.access.keyword.toList] :=
    .kept (by cases m.access <;> decide) .nil
  have qualifier (q : Qualifier) : Yields [q.keyword.toList] [q.keyword.toList] :=
    .kept (by cases q <;> decide) .nil
  rcases m with ⟨a, _ | q⟩
  · simpa [lexemes, toDiagram, leafLexemes_ofSlots, slotCount, leafLexeme] using access
  · simpa [lexemes, toDiagram, leafLexemes_ofSlots, slotCount, leafLexeme] using
      access.append (qualifier q)

/-- The brackets of an array parameter belong to its type, but its name comes first. -/
theorem Parameter.yields {p : Parameter} (sound : p.isWellFormed = true) :
    Yields p.lexemes p.toDiagram.leafLexemes := by
  rw [isWellFormed, Bool.and_eq_true] at sound
  have shown : p.toDiagram.leafLexemes = [p.type.keyword.toList, p.name.toList] := by
    obtain ⟨type, isArray, name⟩ := p
    cases type <;> cases isArray <;>
      simp [toDiagram, leafLexemes_ofSlots, slotCount, leafLexeme, DataType.keyword]
  rw [shown, lexemes]
  cases p.isArray with
  | false => exact .type p.type (ne_bracket_of_isName sound.2) (.name sound.2 .nil)
  | true =>
    have blank : Dims.Written [none] ["[".toList, "]".toList] := .blank .nil
    simpa [Dims.toDiagram?, leafLexeme] using
      blank.yields_behind (by decide) sound.1 sound.2

theorem MethodDecl.Written.yields {method : MethodDecl} {ts : List Lexeme}
    (h : method.Written ts) (sound : method.isWellFormed = true) :
    Yields ts method.toDiagram.leafLexemes := by
  obtain ⟨us, body, rfl⟩ := h
  rw [isWellFormed, Bool.and_eq_true] at sound
  have signature : Yields (method.returnType.keyword.toList :: "main".toList :: "(".toList ::
      method.parameter.lexemes) _ :=
    .type method.returnType (by decide)
      (.dropped (by decide) (.dropped (by decide) (Parameter.yields sound.1)))
  have inside : Yields (")".toList :: "\x7b".toList :: us) _ :=
    .dropped (by decide) (.dropped (by decide) (body.yields sound.2))
  have closed : Yields ["\x7d".toList] [] := .dropped (by decide) .nil
  simpa [toDiagram, leafLexemes_ofSlots, slotCount] using
    ((method.modifier.yields.append signature).append inside).append closed

theorem ClassDecl.Written.yields {decl : ClassDecl} {ts : List Lexeme} (h : decl.Written ts)
    (sound : decl.isWellFormed = true) : Yields ts decl.toDiagram.leafLexemes := by
  obtain ⟨us, method, rfl⟩ := h
  rw [isWellFormed, Bool.and_eq_true] at sound
  have modifier : Yields ((decl.modifier.map Modifier.lexemes).getD [])
      (leafLexemes? (decl.modifier.map Modifier.toDiagram)) := by
    cases decl.modifier with
    | none => exact .nil
    | some m => simpa using m.yields
  have named : Yields ("class".toList :: decl.name.toList :: "\x7b".toList :: us) _ :=
    .dropped (by decide) (.name sound.1 (.dropped (by decide) (method.yields sound.2)))
  have closed : Yields ["\x7d".toList] [] := .dropped (by decide) .nil
  simpa [toDiagram, leafLexemes_ofSlots, slotCount, leafLexeme] using
    (modifier.append named).append closed

/-- The leaves of an accepted source are its lexemes of the kinds that are kept, in their order
but for the names of arrays, each of which comes before its dimensions. -/
theorem leaves_are_lexemes {source : Source} {tally after : Tally} {program : Program}
    (h : source.parse tally = (.ok program, after)) :
    ∃ ts, lexemes? source.text.toList = some ts ∧
      program.toDiagram.leafLexemes = (nameFirst ts).filter isKept ∧
      program.toDiagram.leafLexemes.Perm (ts.filter isKept) := by
  obtain ⟨ts, spells, written, sound⟩ := Source.spells_of_parse h
  have order : leafOrder ts = program.toDiagram.leafLexemes :=
    (ClassDecl.Written.yields written sound).leafOrder_eq
  refine ⟨ts, (spells_nil_iff.mp spells).1, order.symm, ?_⟩
  rw [← order]
  exact (nameFirst_perm ts).filter isKept

/-- A source that has the dimension of an array before its name. -/
def Source.sizeBeforeName : Source :=
  ⟨"A.java", "class A\x7bpublic void main(int p)\x7bint[3]a;\x7d\x7d"⟩

theorem leaves_are_lexemes_sizeBeforeName : ∃ program after,
    Source.sizeBeforeName.parse .fresh = (.ok program, after) ∧
      program.toDiagram.leafLexemes =
        ["A", "public", "void", "int", "p", "int", "a", "3"].map String.toList := by
  have cut : (lexemes? Source.sizeBeforeName.text.toList).map (fun ts =>
      (nameFirst ts).filter isKept) =
        some (["A", "public", "void", "int", "p", "int", "a", "3"].map String.toList) := by
    decide +kernel
  obtain ⟨program, after, run⟩ : ∃ program after, Source.sizeBeforeName.parse .fresh =
      (.ok program, after) := Source.exists_of_isOk (by decide +kernel)
  obtain ⟨ts, lexemes, order, -⟩ := leaves_are_lexemes run
  rw [lexemes, Option.map_some, Option.some_inj, ← order] at cut
  exact ⟨program, after, run, cut⟩

/-- The leaves are not always in the order of the source: the name of an array may stand behind
the size of a dimension. -/
theorem leaves_leave_source_order :
    ¬ ∀ (source : Source) (tally after : Tally) (program : Program) (ts : List Lexeme),
      source.parse tally = (.ok program, after) → lexemes? source.text.toList = some ts →
        program.toDiagram.leafLexemes = ts.filter isKept := by
  intro claim
  have cut : lexemes? Source.sizeBeforeName.text.toList = some (["class", "A", "\x7b", "public",
      "void", "main", "(", "int", "p", ")", "\x7b", "int", "[", "3", "]", "a", ";", "\x7d",
      "\x7d"].map String.toList) := by decide +kernel
  have shown : (Source.sizeBeforeName.parse .fresh).1.toOption.map (fun program =>
      program.toDiagram.leafLexemes) =
        some (["A", "public", "void", "int", "p", "int", "a", "3"].map String.toList) := by
    decide +kernel
  obtain ⟨program, after, run⟩ : ∃ program after, Source.sizeBeforeName.parse .fresh =
      (.ok program, after) := Source.exists_of_isOk (by decide +kernel)
  have order := claim _ _ after program _ run cut
  rw [run, Except.toOption, Option.map_some, Option.some_inj, order] at shown
  exact absurd shown (by decide +kernel)

end SyntaxTree
