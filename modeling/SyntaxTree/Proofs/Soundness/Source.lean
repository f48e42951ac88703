import SyntaxTree.Proofs.Soundness.Construct

/-!
# Accepted sources

A source that is accepted is cut into lexemes to its last character, and the
lexemes are a writing of its program. Nothing of the source is ignored, and no
operator is read as a part of a longer one.
-/

namespace SyntaxTree

open Pattern Rule Lexeme

variable {source : Source} {tally after : Tally} {program : Program}

/-- Where a program has been read, nothing is left of the text. -/
theorem rest_of_program {phrases : List Phrase} {p q : Position}
    (h : Reads true Rule.program.body p phrases q) : q.rest = [] := by
  obtain ⟨_, _, _, -, inside, -⟩ := h.seq_inv
  obtain ⟨_, _, _, -, behind, -⟩ := inside.seq_inv
  obtain ⟨_, _, _, -, last, -⟩ := behind.seq_inv
  obtain ⟨_, _, -, -, -, stop⟩ := last.call_inv (by decide)
  obtain ⟨none, rfl, -⟩ := stop.absent_inv
  cases stands : q.rest with
  | nil => rfl
  | cons c rest =>
    have some : Reads false (char .any) q [] (q.advance [c]) := reads_char stands rfl
    exact absurd none some.not_fails

theorem Source.exists_of_isOk (h : (source.parse tally).1.isOk = true) :
    ∃ program after, source.parse tally = (.ok program, after) := by
  rcases found : source.parse tally with ⟨_ | program, after⟩
  · rw [found] at h
    cases h
  · exact ⟨program, after, rfl⟩

/-- The lexemes of an accepted source, which also tell that no two signs touch. -/
theorem Source.spells_of_parse (h : source.parse tally = (.ok program, after)) :
    ∃ ts, Spells source.text.toList ts [] ∧ program.Written ts ∧ program.isWellFormed = true := by
  rcases source.parse_cases with ⟨error, rejected⟩ | ⟨p, program', found, returns, accepted⟩
  · rw [rejected tally] at h
    cases h
  · obtain ⟨after', parsed⟩ := accepted tally
    rw [parsed] at h
    cases h
    obtain ⟨q, reads⟩ := reads_of_phrases found
    obtain ⟨text, children, single, -, -, inside⟩ := reads.call_inv (by decide)
    have spaced : Rule.program.body.isSpaced false = true := rfl
    obtain ⟨ts, derived, spells⟩ := inside.derives spaced
    obtain ⟨program', gives, sound, written⟩ := spells_program derived
    have tree : p.tree = .node .program (Phrase.trees children) := by
      rw [List.singleton_inj.mp single]
      rfl
    have same : program' = program := by
      obtain ⟨_, run⟩ := returns tally
      obtain ⟨_, run'⟩ := gives p tree tally
      rw [run] at run'
      cases run'
      rfl
    subst same
    refine ⟨ts, ?_, written, sound⟩
    rw [← rest_of_program inside]
    exact spells (by simp) (.inl rfl)

/-- An accepted source is cut by longest match with no character left over, and its lexemes
are a writing of the program that is returned. -/
theorem accepted_source_is_written (h : source.parse tally = (.ok program, after)) :
    ∃ ts, lexemes? source.text.toList = some ts ∧ program.Written ts ∧
      program.isWellFormed = true := by
  obtain ⟨ts, spells, written, sound⟩ := Source.spells_of_parse h
  exact ⟨ts, (spells_nil_iff.mp spells).1, written, sound⟩

/-- Without a blank, `a+++b` is an increment before a sum. -/
theorem accepted_source_is_written_signs : ∃ (program : Program) (ts : List Lexeme),
    lexemes? "class A\x7bpublic void main(int p)\x7bx=a+++b;\x7d\x7d".toList = some ts ∧
      program.Written ts ∧ program.isWellFormed = true := by
  let source : Source := ⟨"A.java", "class A\x7bpublic void main(int p)\x7bx=a+++b;\x7d\x7d"⟩
  have accepted : (source.parse .fresh).1.isOk = true := by decide +kernel
  cases found : source.parse .fresh with
  | mk outcome after =>
    rw [found] at accepted
    cases outcome with
    | error => cases accepted
    | ok program => exact ⟨program, accepted_source_is_written found⟩

end SyntaxTree
