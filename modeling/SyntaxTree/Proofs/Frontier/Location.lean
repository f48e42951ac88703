import SyntaxTree.Proofs.Frontier.Furthest
import SyntaxTree.Proofs.Soundness.Construct

/-!
# Where a syntax error points

A source that is rejected is rejected at the furthest offset at which any rule was
missed. There a character begins, or the source ends, and neither a blank nor a
comment stands there.
-/

namespace SyntaxTree

open Pattern Rule Lexeme

/-- When a program does not match, its class or the end of the input was missed, or something
inside of the class. -/
theorem Pattern.exists_misses_body {p : Position} (h : Fails true (call .program) p) :
    ∃ r q, Misses Rule.program.body p r q := by
  have gap : Reads true skipped p [] (p.advance (gap p.rest)) := reads_skipped p
  rcases reads_or_fails .classDecl (p.advance (Lexeme.gap p.rest)) with ⟨_, m, inside⟩ | failed
  · have gap' : Reads true skipped m [] (m.advance (Lexeme.gap m.rest)) := reads_skipped m
    rcases reads_or_fails .endOfInput (m.advance (Lexeme.gap m.rest)) with ⟨_, q, last⟩ | failed
    · have body : Reads (Rule.program.kind == .plain) Rule.program.body p _ q :=
        reads_seq gap (reads_seq inside (reads_seq gap' last))
      obtain ⟨_, -, -, whole⟩ := reads_call (by decide) body
      exact absurd h whole.not_fails
    · exact ⟨.endOfInput, _, .second gap (.second inside (.second gap' (.here (by decide) failed)))⟩
  · exact ⟨.classDecl, _, .second gap (.first (.here (by decide) failed))⟩

namespace Source

variable {source : Source} {tally after : Tally} {fault : Fault}

/-- In the match of a whole program, the rule is entered at the position and fails there. -/
def Misses (source : Source) (r : Rule) (q : Position) : Prop :=
  Pattern.Misses (call .program) (.atStart source.text.toList) r q

/-- A fault of a parse is a syntax error that is made from the frontier. -/
theorem exists_frontier (h : source.parse tally = (.error fault, after)) : ∃ frontier,
    Rule.program.phrases source.text.toList = .error frontier ∧
      fault = .rejected source.name (.ofFrontier source.text.toList frontier) ∧
      after = tally.recordError := by
  cases found : Rule.program.phrases source.text.toList with
  | error frontier =>
    unfold parse at h
    rw [found] at h
    cases h
    exact ⟨frontier, rfl, rfl, rfl⟩
  | ok ps =>
    obtain ⟨p, program, rfl, returns⟩ :=
      Construct.returns (c := .program) (List.mem_singleton_self _) found
    obtain ⟨after', run⟩ := returns tally
    unfold parse at h
    rw [found] at h
    dsimp only at h
    rw [show (Program.ofPhrase p).run.run tally = _ from run] at h
    cases h

/-- The furthest miss is one that skipping comes before. -/
theorem exists_misses_body {frontier : Frontier}
    (h : Rule.program.phrases source.text.toList = .error frontier) :
    ∃ r q, Pattern.Misses Rule.program.body (.atStart source.text.toList) r q ∧
      q.offset = frontier.offset := by
  obtain ⟨failed, follows⟩ := follows_of_phrases h
  -- The program itself is entered at the start. If nothing was missed further on, then what was
  -- missed inside of it was missed at the start as well.
  have atStart (start : frontier.offset = 0) : ∃ r q,
      Pattern.Misses Rule.program.body (.atStart source.text.toList) r q ∧
        q.offset = frontier.offset := by
    obtain ⟨r, q, miss⟩ := Pattern.exists_misses_body failed
    have le := follows.furthest r q (.inside (by decide) miss)
    exact ⟨r, q, miss, by omega⟩
  rcases follows.reached with start | ⟨r, q, miss, here⟩
  · exact atStart start
  · rcases misses_call.mp miss with ⟨-, inside⟩ | ⟨-, -, -, rfl⟩
    · exact ⟨r, q, inside, here⟩
    · exact atStart here.symm

/-- The text in front of a miss is told by its offset, and no gap stands behind it. -/
theorem exists_rest {r : Rule} {q : Position}
    (miss : Pattern.Misses Rule.program.body (.atStart source.text.toList) r q) :
    ∃ before, source.text.toList = before ++ q.rest ∧ Text.byteLength before = q.offset ∧
      gap q.rest = [] := by
  obtain ⟨before, stands, rfl⟩ := miss.text
  have spaced : Rule.program.body.isSpaced false = true := rfl
  have settled := miss.skip_rest spaced (looksBare_body (by decide)) (by simp)
  refine ⟨before, stands, by simp [Position.advance, Position.atStart], ?_⟩
  rw [← settled, gap_skip]

end Source

theorem Text.isValid_byteLength {s : String} {before rest : List Char}
    (split : s.toList = before ++ rest) :
    Text.byteLength before ≤ s.utf8ByteSize ∧
      String.Pos.Raw.IsValid s ⟨Text.byteLength before⟩ := by
  have same : s = String.ofList before ++ String.ofList rest := by
    rw [← String.ofList_append, ← split, String.ofList_toList]
  have size : (String.ofList before).utf8ByteSize = Text.byteLength before :=
    Text.utf8ByteSize_ofList before
  constructor
  · rw [same, String.utf8ByteSize_append, size]
    exact Nat.le_add_right _ _
  · refine String.Pos.Raw.isValid_iff_exists_append.mpr ⟨_, _, same, ?_⟩
    rw [← size]
    rfl

/-- A rejected source is rejected at a character boundary, at the furthest offset at which any
rule was missed. What is expected there are rules that were missed at that offset, and neither a
blank nor a comment begins there. -/
theorem error_points_at_furthest_miss {source : Source} {tally after : Tally} {fault : Fault}
    (h : source.parse tally = (.error fault, after)) :
    ∃ error, fault = .rejected source.name error ∧
      error.offset ≤ source.text.utf8ByteSize ∧
      String.Pos.Raw.IsValid source.text ⟨error.offset⟩ ∧
      (∃ rule q, source.Misses rule q ∧ q.offset = error.offset) ∧
      (∀ rule q, source.Misses rule q → q.offset ≤ error.offset) ∧
      (∀ name ∈ error.expected, ∃ rule q, source.Misses rule q ∧ q.offset = error.offset ∧
        rule.description = name) ∧
      ∃ before rest, source.text.toList = before ++ rest ∧ Text.byteLength before = error.offset ∧
        (∀ c ∈ rest.head?, isGap c = false) ∧ comment? rest = none := by
  obtain ⟨frontier, found, rfl, -⟩ := Source.exists_frontier h
  obtain ⟨-, follows⟩ := follows_of_phrases found
  obtain ⟨r, q, miss, here⟩ := Source.exists_misses_body found
  obtain ⟨before, split, size, still⟩ := Source.exists_rest miss
  obtain ⟨le, boundary⟩ := Text.isValid_byteLength split
  rw [size, here] at le boundary
  refine ⟨_, rfl, le, boundary, ⟨r, q, .inside (by decide) miss, here⟩, follows.furthest,
    fun name mem => ?_, before, q.rest, split, size.trans here, gap_eq_nil_iff.mp still⟩
  obtain ⟨rule, known, rfl⟩ := List.mem_map.mp (Text.mem_ordered.mp mem)
  rcases follows.expected rule known with ⟨-, none⟩ | ⟨q, miss, here⟩
  · cases none
  · exact ⟨rule, q, miss, here, rfl⟩

/-- A letter of two bytes stands where the type of a method is missing. -/
theorem error_points_at_furthest_miss_letter : ∃ error rule q,
    ((⟨"A.java", "class A\x7bpublic /**/ é"⟩ : Source).parse .fresh).1 =
        .error (.rejected "A.java" error) ∧
      Source.Misses ⟨"A.java", "class A\x7bpublic /**/ é"⟩ rule q ∧ q.offset = error.offset := by
  let source : Source := ⟨"A.java", "class A\x7bpublic /**/ é"⟩
  have rejected : (source.parse .fresh).1.isOk = false := by decide
  rcases found : source.parse .fresh with ⟨fault | program, after⟩
  · obtain ⟨error, rfl, -, -, ⟨rule, q, miss, here⟩, -⟩ := error_points_at_furthest_miss found
    exact ⟨error, rule, q, rfl, miss, here⟩
  · rw [found] at rejected
    cases rejected

end SyntaxTree
