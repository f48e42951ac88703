import SyntaxTree.Proofs.Acceptance.Takes
import SyntaxTree.Proofs.Frontier.Misses
import SyntaxTree.Proofs.Soundness.Source
import SyntaxTree.Proofs.Truncation.Lexing

/-!
# Truncated sources

A source that ends before its class is closed is rejected, wherever it was cut. If
it were accepted, its lexemes would be those of a class up to a brace. With the rest
of the source put back behind that brace they would stay the same, so this class
would be the front of the whole one.
-/

namespace SyntaxTree

open Pattern Rule Lexeme

namespace Pattern

variable {a : Pattern} {items : List Pattern} {p q : Position} {phrases : List Phrase}

/-- What was read in front of the last of several items. -/
theorem Reads.before_last (h : Reads true (spaced (items ++ [a])) p phrases q) :
    ∃ before m last, Reads true (spaced (items ++ [empty])) p before m ∧ Reads true a m last q := by
  induction items generalizing p phrases with
  | nil => exact ⟨[], p, phrases, reads_empty, h⟩
  | cons item items ih =>
    rw [List.cons_append, spaced_cons (by simp)] at h
    obtain ⟨_, m, _, first, behind, -⟩ := h.seq_inv
    obtain ⟨_, m', _, gap, others, -⟩ := behind.seq_inv
    obtain ⟨before, stop, last, reads, rest⟩ := ih others
    have joined := reads_seq first (reads_seq gap reads)
    rw [← spaced_cons (by simp)] at joined
    exact ⟨_, stop, last, joined, rest⟩

/-- A program was read as its class with a gap on either side. -/
theorem exists_classDecl {text : List Char} {program : Phrase}
    (h : Rule.program.phrases text = .ok [program]) :
    ∃ decl m eoi, Reads true (call classDecl) ((Position.atStart text).advance (gap text)) decl m ∧
      skip m.rest = [] ∧ program.children = decl ++ [eoi] := by
  obtain ⟨q, reads⟩ := reads_of_phrases h
  obtain ⟨_, children, single, -, -, inside⟩ := reads.call_inv (by decide)
  obtain rfl := List.singleton_inj.mp single
  have done := rest_of_program inside
  obtain ⟨_, m, _, gap, others, rfl⟩ := inside.seq_inv
  obtain ⟨decl, m', _, first, behind, rfl⟩ := others.seq_inv
  obtain ⟨_, m'', _, gap', last, rfl⟩ := behind.seq_inv
  obtain ⟨rfl, rfl, -⟩ := gap.skipped_inv
  obtain ⟨rfl, rfl, -⟩ := gap'.skipped_inv
  obtain ⟨_, _, rfl, -, -, stop⟩ := last.call_inv (by decide)
  obtain ⟨-, rfl, -⟩ := stop.absent_inv
  exact ⟨decl, m', _, first, done, rfl⟩

/-- A class was read up to a closing brace, and in front of it as a class without one. -/
theorem exists_openClass (still : skip p.rest = p.rest)
    (h : Reads true (call classDecl) p phrases q) :
    ∃ front children us trees, phrases = [⟨.classDecl, p.offset, front ++ ['\x7d'], children⟩] ∧
      p.rest = front ++ '\x7d' :: q.rest ∧ Derives openClass us trees ∧
        Spells p.rest us ('\x7d' :: q.rest) := by
  obtain ⟨text, children, rfl, stands, -, inside⟩ := h.call_inv (by decide)
  have items : Reads true (spaced ([optional (call modifier), call kwClass, call ident, word "\x7b",
      call methodDecl] ++ [word "\x7d"])) p children q := inside
  obtain ⟨before, m, _, reads, brace⟩ := items.before_last
  obtain ⟨closing, -, -⟩ := brace.literal_inv
  have class' : openClass.isSpaced true = true := rfl
  obtain ⟨us, derived, spells⟩ := reads.derives class'
  obtain ⟨front, split, -⟩ := reads.text
  have stop : openClass.EndsAt m := .inr (by rw [closing]; rfl)
  rw [closing] at split spells
  have whole : text = front ++ ['\x7d'] := by
    have same : text ++ q.rest = front ++ ['\x7d'] ++ q.rest := by
      rw [← stands, split, List.append_assoc]
      rfl
    exact List.append_cancel_right same
  exact ⟨front, children, us, _, by rw [whole], split, derived,
    spells (fun _ => still) stop⟩

end Pattern

/-- The text ends with a class, and the lexemes are those in front of its closing brace. -/
structure ClosesAt (text front : List Char) (us : List Lexeme) (behind : List Char) : Prop where
  split : text = front ++ '\x7d' :: behind
  blank : skip behind = []
  derived : ∃ trees, Derives openClass us trees
  spells : Spells text us ('\x7d' :: behind)

namespace ClosesAt

variable {text front behind text' front' behind' : List Char} {us us' : List Lexeme}

/-- What is left of a text in front of its closing brace does not close a class. -/
theorem not_isPrefix (whole : ClosesAt text front us behind)
    (cut : ClosesAt text' front' us' behind') : ¬ text' <+: front := by
  rintro ⟨gone, inside⟩
  obtain ⟨trees, derived⟩ := whole.derived
  obtain ⟨trees', derived'⟩ := cut.derived
  have joined : text = text' ++ (gone ++ '\x7d' :: behind) := by
    rw [whole.split, ← inside, List.append_assoc]
  have longer := cut.spells.append (derived'.isChain_apart (by decide)) (gone ++ '\x7d' :: behind)
  rw [← joined] at longer
  obtain ⟨vs, same, -⟩ := longer.closed.exists_append whole.spells.closed whole.blank
  obtain rfl : us' = us := openClass_unique derived' derived (by simpa using same.symm)
  have place := longer.skip_unique whole.spells
  rw [skip_brace, skip_brace] at place
  have length := congrArg List.length place
  simp at length
  omega

end ClosesAt

namespace Source

variable {source : Source} {tally after : Tally} {program : Program}

/-- The phrase of the class, where the source has one. -/
def classPhrase? (source : Source) : Option Phrase :=
  (Rule.program.phrases source.text.toList).toOption.bind fun phrases =>
    (phrases.flatMap Phrase.children).find? fun p => p.rule == .classDecl

/-- An accepted source closes its class, at the end of the phrase of the class. -/
theorem exists_closesAt (h : source.parse tally = (.ok program, after)) :
    ∃ decl front us behind, source.classPhrase? = some decl ∧
      decl.stop = Text.byteLength (front ++ ['\x7d']) ∧
        ClosesAt source.text.toList front us behind := by
  rcases source.parse_cases with ⟨error, rejected⟩ | ⟨p, program', found, -, -⟩
  · rw [rejected tally] at h
    cases h
  · obtain ⟨_, m, eoi, reads, blank, children⟩ := exists_classDecl found
    obtain ⟨front, inner, us, trees, rfl, split, derived, spells⟩ :=
      exists_openClass (skip_skip _) reads
    have rest : ((Position.atStart source.text.toList).advance (gap source.text.toList)).rest =
        skip source.text.toList := rfl
    rw [rest] at split spells
    have whole : source.text.toList = gap source.text.toList ++ front ++ '\x7d' :: m.rest := by
      rw [List.append_assoc, ← split, gap_append_skip]
    have phrase : source.classPhrase? = some ⟨.classDecl,
        ((Position.atStart source.text.toList).advance (gap source.text.toList)).offset,
        front ++ ['\x7d'], inner⟩ := by
      rw [classPhrase?, found, Except.toOption, Option.bind_some, List.flatMap_singleton, children]
      rfl
    refine ⟨_, gap source.text.toList ++ front, us, m.rest, phrase, ?_, whole, blank,
      ⟨trees, derived⟩, spells.congr (skip_skip _)⟩
    simp [Phrase.stop, Phrase.length, Position.advance, Position.atStart]

/-- Whatever part of an accepted source ends before the end of the closing brace of the class is
rejected. -/
theorem rejects_cut {front behind : List Char} {us : List Lexeme} {cut : Source}
    (whole : ClosesAt source.text.toList front us behind) (inside : cut.text.toList <+: front) :
    ∃ error, ∀ tally, cut.parse tally = (.error (.rejected cut.name error), tally.recordError) := by
  rcases cut.parse_cases with rejected | ⟨_, program, -, -, accepted⟩
  · exact rejected
  · obtain ⟨after, parsed⟩ := accepted .fresh
    obtain ⟨_, _, _, _, -, -, closed⟩ := exists_closesAt parsed
    exact absurd inside (whole.not_isPrefix closed)

end Source

/-- A truncated program is never accepted: every prefix of an accepted source that ends before the
end of the closing brace of the class is rejected by the grammar, wherever it was cut. -/
theorem truncated_source_is_rejected {source : Source} {tally after : Tally} {program : Program}
    (h : source.parse tally = (.ok program, after)) :
    ∃ decl front behind, source.classPhrase? = some decl ∧
      source.text.toList = front ++ '\x7d' :: behind ∧ skip behind = [] ∧
      decl.stop = Text.byteLength (front ++ ['\x7d']) ∧
      ∀ cut : Source, cut.text.toList <+: source.text.toList →
        cut.text.utf8ByteSize < decl.stop →
        ∃ error, ∀ tally', cut.parse tally' =
          (.error (.rejected cut.name error), tally'.recordError) := by
  obtain ⟨decl, front, us, behind, found, stop, whole⟩ := source.exists_closesAt h
  refine ⟨decl, front, behind, found, whole.split, whole.blank, stop, fun cut isPrefix short => ?_⟩
  have closing : front ++ ['\x7d'] <+: source.text.toList :=
    ⟨behind, by rw [whole.split, List.append_assoc]; rfl⟩
  have size : cut.text.utf8ByteSize = Text.byteLength cut.text.toList := by
    rw [← Text.utf8ByteSize_ofList, String.ofList_toList]
  rw [stop, size] at short
  have inside : cut.text.toList <+: front ++ ['\x7d'] := by
    refine (List.prefix_or_prefix_of_prefix isPrefix closing).resolve_right ?_
    rintro ⟨more, longer⟩
    rw [← longer, Text.byteLength_append] at short
    omega
  rcases List.prefix_concat_iff.mp inside with same | inside
  · rw [same] at short
    omega
  · exact Source.rejects_cut whole inside

/-- Inside a word, an operator, a string literal and a comment, with braces in the last two. -/
theorem truncated_source_is_rejected_inside :
    List.Forall (fun cut => ∃ error, (⟨"A.java", cut⟩ : Source).parse .fresh =
        (.error (.rejected "A.java" error), Tally.fresh.recordError))
      ["class A\x7bpublic void ma", "class A\x7bpublic void main(int p)\x7bif(a=",
        "class A\x7bpublic void main(int p)\x7bif(a==\"\x7d\x7d",
        "class A\x7bpublic void main(int p)\x7bif(a==\"\x7d\x7d\")\x7b\x7d/*\x7d\x7d"] := by
  let source : Source := ⟨"A.java",
    "class A\x7bpublic void main(int p)\x7bif(a==\"\x7d\x7d\")\x7b\x7d/*\x7d\x7d*/\x7d\x7d "⟩
  have accepted : (source.parse .fresh).1.isOk = true := by decide +kernel
  obtain ⟨program, after, parsed⟩ := Source.exists_of_isOk accepted
  obtain ⟨decl, -, -, found, -, -, -, rejects⟩ := truncated_source_is_rejected parsed
  have place : source.classPhrase?.map Phrase.stop = some 53 := by decide +kernel
  have stop : decl.stop = 53 :=
    Option.some.inj ((congrArg (Option.map Phrase.stop) found).symm.trans place)
  refine List.forall_iff_forall_mem.mpr fun cut mem => ?_
  have short : cut.toList <+: source.text.toList ∧ cut.utf8ByteSize < 53 := by
    revert cut
    decide +kernel
  obtain ⟨error, rejected⟩ := rejects ⟨"A.java", cut⟩ short.1 (stop.symm ▸ short.2)
  exact ⟨error, rejected .fresh⟩

end SyntaxTree
