import SyntaxTree.Proofs.Acceptance.Class
import SyntaxTree.Proofs.Soundness.Source

/-!
# Written sources are read

A source whose lexemes are a writing of a program is read as that program,
whatever stands between the lexemes. There is one exception: a plus or minus that
is directly followed by another sign is not taken for an operator, although the
longest match cuts it off, so such a source is rejected.
-/

namespace SyntaxTree

open Pattern Rule Lexeme

variable {ts : List Lexeme} {program : Program}

/-- A writing of a program is read from the start of a text to its end. -/
theorem Program.Written.reads {text : List Char} (h : program.Written ts)
    (sound : program.isWellFormed = true) (spells : Spells text ts []) :
    ∃ p, Rule.program.phrases text = .ok [p] ∧ (Program.ofPhrase p).Returns program := by
  obtain ⟨children, gives, takes⟩ := accepts_classDecl h sound
  have spells' : Spells (Position.atStart text).rest ts [] := spells
  obtain ⟨start, gap, stands⟩ := exists_stands spells'
  obtain ⟨phrases, behind, inside, left, trees⟩ := takes start stands
  obtain ⟨stop, gap', stands'⟩ := exists_stands left
  have none : Fails false (char .any) stop := by
    refine fails_char fun c rest more => ?_
    rw [stands'.rest_nil] at more
    cases more
  have ended : Reads (Rule.endOfInput.kind == .plain) Rule.endOfInput.body stop [] stop :=
    reads_absent none
  obtain ⟨rest, -, -, last⟩ := reads_call (by decide) ended
  have body : Reads (Rule.program.kind == .plain) Rule.program.body (.atStart text) _ stop :=
    reads_seq gap (reads_seq inside (reads_seq gap' last))
  obtain ⟨text', -, -, whole⟩ := reads_call (by decide) body
  refine ⟨_, phrases_of_reads whole, Tree.gives_program gives [.node .endOfInput []] _ ?_⟩
  simp [Phrase.tree, Phrase.trees_append, trees, kind, Phrase.trees]

theorem Source.parse_of_written {source : Source} (h : program.Written ts)
    (sound : program.isWellFormed = true) (spells : Spells source.text.toList ts [])
    (tally : Tally) : ∃ after, source.parse tally = (.ok program, after) := by
  obtain ⟨p, found, returns⟩ := h.reads sound spells
  obtain ⟨after, run⟩ := returns tally
  refine ⟨after, ?_⟩
  unfold Source.parse
  rw [found]
  dsimp only
  rw [run]

/-- Every source whose lexemes are a writing of a well-formed program is read as that program,
unless two signs touch in it, and then it is rejected. -/
theorem written_source_is_read {source : Source} (sound : program.isWellFormed = true)
    (written : program.Written ts) (layout : lexemes? source.text.toList = some ts)
    (tally : Tally) :
    (signsTouch source.text.toList = false → ∃ after, source.parse tally = (.ok program, after)) ∧
      (signsTouch source.text.toList = true → ∃ error,
        source.parse tally = (.error (.rejected source.name error), tally.recordError)) := by
  constructor
  · intro apart
    exact Source.parse_of_written written sound (spells_nil_iff.mpr ⟨layout, apart⟩) tally
  · intro touch
    rcases source.parse_cases with ⟨error, rejected⟩ | ⟨p, program', -, -, accepted⟩
    · exact ⟨error, rejected tally⟩
    · obtain ⟨after, run⟩ := accepted tally
      obtain ⟨ts', spells, -⟩ := Source.spells_of_parse run
      rw [(spells_nil_iff.mp spells).2] at touch
      cases touch

/-- A program that does nothing else than give a value to a name. -/
def Program.assigning (value : Expr) : Program :=
  ⟨⟨none, "A", ⟨⟨.publicAccess, none⟩, .void, ⟨.int, false, "p"⟩,
    [.initialization (.assign ⟨.ident "x", .assign, value⟩)]⟩⟩⟩

/-- The source of such a program, where the value may begin without a blank. -/
def Source.assigning (value : String) : Source :=
  ⟨"A.java", "class A\x7bpublic void main(int p)\x7bx=" ++ value ++ ";\x7d\x7d"⟩

theorem Program.assigning_written {value : Expr} (h : Expr.Written 0 value ts) :
    (Program.assigning value).Written
      (["class", "A", "\x7b", "public", "void", "main", "(", "int", "p", ")", "\x7b", "x", "="].map
        String.toList ++ ts ++ [";", "\x7d", "\x7d"].map String.toList) := by
  refine ⟨_, ⟨_, .initialization ⟨_, _, .ident "x" (by decide), h, rfl⟩ .nil, rfl⟩, ?_⟩
  simp [Program.assigning, Modifier.lexemes, Parameter.lexemes, Access.keyword,
    DataType.keyword, AssignOp.symbol]

/-- The increment of an operand may stand before a plus, with a comment for a blank. -/
theorem written_source_is_read_sum : ∃ after, (Source.assigning "a++/**/+c").parse .fresh =
    (.ok (.assigning (.binary .add (.incDec .increment .after (.ident "a")) (.ident "c"))),
      after) := by
  have step : Expr.Written 4 (.incDec .increment .after (.ident "a")) _ :=
    .incDec (by decide) (.ident "a" (by decide))
  have sum : Expr.Written 0 (.binary .add _ (.ident "c")) _ :=
    .binary (by decide) step (.ident "c" (by decide))
  exact (written_source_is_read (by decide) (Program.assigning_written sum)
    (by decide +kernel) .fresh).1 (by decide +kernel)

/-- Two signs that touch are two lexemes, yet the source is not read. -/
theorem touching_signs_are_refused :
    ¬ ∀ (program : Program) (ts : List Lexeme) (source : Source) (tally : Tally),
      program.isWellFormed = true → program.Written ts → lexemes? source.text.toList = some ts →
        ∃ after, source.parse tally = (.ok program, after) := by
  intro claim
  have step : Expr.Written 5 (.incDec .decrement .before (.ident "c")) _ :=
    .incDec (by decide) (.ident "c" (by decide))
  have sum : Expr.Written 0 (.binary .add (.ident "a") _) _ :=
    .binary (by decide) (.ident "a" (by decide)) step
  obtain ⟨after, run⟩ := claim _ _ (.assigning "a+--c") .fresh (by decide)
    (Program.assigning_written sum) (by decide +kernel)
  have rejected : ((Source.assigning "a+--c").parse .fresh).1.isOk = false := by decide +kernel
  rw [run] at rejected
  cases rejected

end SyntaxTree
