import SyntaxTree.Proofs.Acceptance.Source

/-!
# Layout does not matter

What stands between the lexemes of a source decides nothing: a source that is
accepted hands its program on to every source with the same lexemes. The one
thing that counts is whether two signs touch, since then the source is rejected.
-/

namespace SyntaxTree

open Lexeme

namespace Source

variable {source source' : Source} {tally after : Tally} {program : Program}

/-- Both sources are accepted with the same program, or both are rejected by the grammar. -/
def SameOutcome (source source' : Source) (tally : Tally) : Prop :=
  (∃ program after after', source.parse tally = (.ok program, after) ∧
      source'.parse tally = (.ok program, after')) ∨
    ∃ error error', source.parse tally = (.error (.rejected source.name error), tally.recordError) ∧
      source'.parse tally = (.error (.rejected source'.name error'), tally.recordError)

/-- No signs touch in a source that is accepted. -/
theorem signsTouch_of_parse (h : source.parse tally = (.ok program, after)) :
    signsTouch source.text.toList = false := by
  obtain ⟨ts, spells, -⟩ := spells_of_parse h
  exact (spells_nil_iff.mp spells).2

/-- An accepted source hands its program on to every other layout of its lexemes. -/
theorem parse_of_same_lexemes (h : source.parse tally = (.ok program, after))
    (same : lexemes? source.text.toList = lexemes? source'.text.toList)
    (apart : signsTouch source'.text.toList = false) (tally' : Tally) :
    ∃ after', source'.parse tally' = (.ok program, after') := by
  obtain ⟨ts, spells, written, sound⟩ := spells_of_parse h
  have layout : lexemes? source'.text.toList = some ts :=
    same.symm.trans (spells_nil_iff.mp spells).1
  exact parse_of_written written sound (spells_nil_iff.mpr ⟨layout, apart⟩) tally'

theorem rejected_of_touch (touch : signsTouch source.text.toList = true) :
    ∃ error, source.parse tally = (.error (.rejected source.name error), tally.recordError) := by
  rcases source.parse_cases with ⟨error, rejected⟩ | ⟨_, _, -, -, accepted⟩
  · exact ⟨error, rejected tally⟩
  · obtain ⟨after, run⟩ := accepted tally
    rw [signsTouch_of_parse run] at touch
    cases touch

end Source

/-- Sources with the same lexemes have the same outcome if signs touch in both of them or in
neither, and a source where signs touch is rejected. -/
theorem same_lexemes_same_outcome {source source' : Source} {ts : List Lexeme} (tally : Tally)
    (layout : lexemes? source.text.toList = some ts)
    (layout' : lexemes? source'.text.toList = some ts) :
    (signsTouch source.text.toList = signsTouch source'.text.toList →
        source.SameOutcome source' tally) ∧
      (signsTouch source.text.toList = true → ∃ error,
        source.parse tally = (.error (.rejected source.name error), tally.recordError)) := by
  have same : lexemes? source.text.toList = lexemes? source'.text.toList :=
    layout.trans layout'.symm
  refine ⟨fun touch => ?_, Source.rejected_of_touch⟩
  rcases source.parse_cases with ⟨error, rejected⟩ | ⟨_, program, -, -, accepted⟩
  · rcases source'.parse_cases with ⟨error', rejected'⟩ | ⟨_, program', -, -, accepted'⟩
    · exact .inr ⟨error, error', rejected tally, rejected' tally⟩
    · -- The other source would hand its program on to this one, which is rejected.
      obtain ⟨after', run'⟩ := accepted' tally
      obtain ⟨after, run⟩ := Source.parse_of_same_lexemes run' same.symm
        (touch.trans (Source.signsTouch_of_parse run')) tally
      rw [rejected tally] at run
      cases run
  · obtain ⟨after, run⟩ := accepted tally
    obtain ⟨after', run'⟩ := Source.parse_of_same_lexemes run same
      (touch.symm.trans (Source.signsTouch_of_parse run)) tally
    exact .inl ⟨program, after, after', run, run'⟩

/-- A comment with a brace in it stands between two lexemes as well as nothing. -/
theorem same_lexemes_same_outcome_comment :
    (Source.assigning "a++ /*\x7b*/ +c").SameOutcome (.assigning "a+++c") .fresh := by
  let ts : List Lexeme := ["class", "A", "\x7b", "public", "void", "main", "(", "int", "p", ")",
    "\x7b", "x", "=", "a", "++", "+", "c", ";", "\x7d", "\x7d"].map String.toList
  have layout : lexemes? (Source.assigning "a++ /*\x7b*/ +c").text.toList = some ts := by
    decide +kernel
  have layout' : lexemes? (Source.assigning "a+++c").text.toList = some ts := by decide +kernel
  exact (same_lexemes_same_outcome .fresh layout layout').1 (by decide +kernel)

/-- A blank between two signs decides whether a source is accepted. -/
theorem layout_of_signs_matters :
    ¬ ∀ (source source' : Source) (ts : List Lexeme) (tally : Tally),
      lexemes? source.text.toList = some ts → lexemes? source'.text.toList = some ts →
        source.SameOutcome source' tally := by
  intro claim
  have accepted : ((Source.assigning "a+ --c").parse .fresh).1.isOk = true := by decide +kernel
  have rejected : ((Source.assigning "a+--c").parse .fresh).1.isOk = false := by decide +kernel
  have cut : lexemes? (Source.assigning "a+ --c").text.toList =
      lexemes? (Source.assigning "a+--c").text.toList := by decide +kernel
  have some' : (lexemes? (Source.assigning "a+--c").text.toList).isSome = true := by
    decide +kernel
  obtain ⟨ts, found⟩ := Option.isSome_iff_exists.mp some'
  rcases claim _ _ ts .fresh (cut.trans found) found with
    ⟨_, _, _, -, run⟩ | ⟨_, _, run, -⟩
  · rw [run] at rejected
    cases rejected
  · rw [run] at accepted
    cases accepted

end SyntaxTree
