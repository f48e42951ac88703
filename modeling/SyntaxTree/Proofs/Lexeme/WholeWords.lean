import SyntaxTree.Proofs.Lexeme.Verdict

/-!
# Words are read whole

The rules for names and for fixed words all look at the same run of word characters, and each of
them reads the whole run or does not match. So no word is split, no word is read both as a name and
as a fixed word, and a word that goes on behind a keyword is a name.
-/

namespace SyntaxTree

namespace Lexeme

theorem mem_keywords_iff (t : Lexeme) : t ∈ keywords.map String.toList ↔ isKeyword t = true := by
  rw [← Rule.contains_keywords, List.contains_iff_mem]
  rfl

/-- When the longest run of word characters is a name. -/
theorem isName_word_iff (cs : List Char) :
    isName (word cs) = true ↔ word cs ≠ [] ∧ (word cs).head?.any Char.isDigit = false ∧
      word cs ∉ keywords.map String.toList := by
  rw [mem_keywords_iff, isName, all_word]
  cases word cs <;> simp

/-- A word that goes on behind a keyword is a name. -/
theorem isName_of_keyword_front {k : String} {cs : List Char} (mem : k ∈ keywords)
    (front : k.toList <+: word cs) (longer : word cs ≠ k.toList) : isName (word cs) = true := by
  have mem : k.toList ∈ Rule.keyword.words.map String.toList := List.mem_map_of_mem mem
  obtain ⟨c, head, -, digit⟩ := Rule.head_of_words mem
  obtain ⟨rest, split⟩ := front
  have head : (word cs).head? = some c := by
    rw [← split, List.head?_append, Option.mem_def.mp head]
    rfl
  refine (isName_word_iff cs).mpr ⟨?_, ?_, fun keyword => longer ?_⟩
  · intro none
    simp [none] at head
  · rw [head, Option.any_some, digit]
  · exact (Pattern.eq_of_isPrefix (Rule.areApart_words .keyword) keyword mem ⟨rest, split⟩).symm

end Lexeme

namespace Rule

open Lexeme

/-- The rules that read one of some fixed words. -/
def wordRules : List Rule :=
  [keyword, kwClass, kwMain, kwIf, kwElse, kwFor, kwNew, access, qualifier, dataType, voidType]

variable {r : Rule} {p : Position}

theorem words_of_mem_wordRules (h : r ∈ wordRules) :
    r.kind = .lexical ∧ r.words ≠ [] ∧ ∀ w ∈ r.words, w ∈ keywords := by
  revert r
  decide

theorem matchAt_ident (p : Position) : (ident.matchAt p).1 =
    if isName (word p.rest) then ident.reading p (word p.rest) else .failed := by
  rw [matchAt_of_scans rfl scans_ident]
  by_cases name : isName (word p.rest) = true
  · simp [name]
  · simp [name]

theorem matchAt_words (h : r ∈ wordRules) : (r.matchAt p).1 =
    if word p.rest ∈ r.words.map String.toList then r.reading p (word p.rest) else .failed := by
  obtain ⟨lexical, words, -⟩ := words_of_mem_wordRules h
  rw [matchAt_of_scans lexical (scans_words words)]
  by_cases mem : word p.rest ∈ r.words.map String.toList
  · simp [Pattern.wordAmong, mem]
  · simp [Pattern.wordAmong, mem]

/-- Where a name or a fixed word is wanted, the longest run of word characters is read as a whole
or nothing is. It is never both a name and a fixed word, and a run that only begins with a keyword
is a name. -/
theorem words_are_whole (p : Position) :
    (ident.matchAt p).1 =
        (if word p.rest ≠ [] ∧ (word p.rest).head?.any Char.isDigit = false ∧
            word p.rest ∉ keywords.map String.toList
          then ident.reading p (word p.rest) else .failed) ∧
      (∀ r ∈ wordRules, (r.matchAt p).1 =
        if word p.rest ∈ r.words.map String.toList
          then r.reading p (word p.rest) else .failed) ∧
      (∀ r ∈ wordRules, (ident.matchAt p).1 = .failed ∨ (r.matchAt p).1 = .failed) ∧
      ∀ k ∈ keywords, k.toList <+: word p.rest → word p.rest ≠ k.toList →
        (ident.matchAt p).1 = ident.reading p (word p.rest) := by
  refine ⟨?name, ?fixed, ?apart, ?longer⟩
  case name =>
    simp only [matchAt_ident, isName_word_iff]
  case fixed =>
    intro r mem
    exact matchAt_words mem
  case apart =>
    intro r mem
    rw [matchAt_ident, matchAt_words mem]
    by_cases fixed : word p.rest ∈ r.words.map String.toList
    · -- Every fixed word is a keyword, and no keyword is a name.
      obtain ⟨w, inside, same⟩ := List.mem_map.mp fixed
      have keyword : word p.rest ∈ keywords.map String.toList :=
        List.mem_map.mpr ⟨w, (words_of_mem_wordRules mem).2.2 w inside, same⟩
      refine .inl (if_neg fun name => ?_)
      exact ((isName_word_iff p.rest).mp name).2.2 keyword
    · exact .inr (if_neg fixed)
  case longer =>
    intro k mem front longer
    rw [matchAt_ident, if_pos (isName_of_keyword_front mem front longer)]

/-- In front of `int8` a name of four characters stands and no type, in front of `int` a type. -/
theorem words_are_whole_int :
    (ident.matchAt (.atStart "int8=1".toList)).1 =
        .matched "int8".toList ⟨4, "=1".toList⟩ [⟨ident, 0, "int8".toList, []⟩] ∧
      (dataType.matchAt (.atStart "int8=1".toList)).1 = .failed ∧
      (dataType.matchAt (.atStart "int a".toList)).1 =
        .matched "int".toList ⟨3, " a".toList⟩ [⟨dataType, 0, "int".toList, []⟩] ∧
      (ident.matchAt (.atStart "int a".toList)).1 = .failed := by
  obtain ⟨-, fixed, -, longer⟩ := words_are_whole (.atStart "int8=1".toList)
  obtain ⟨name, fixed', -, -⟩ := words_are_whole (.atStart "int a".toList)
  refine ⟨?_, ?_, ?_, ?_⟩
  · exact longer "int" (by decide) (by decide) (by decide)
  · exact (fixed dataType (by decide)).trans (if_neg (by decide))
  · exact (fixed' dataType (by decide)).trans (if_pos (by decide))
  · exact name.trans (if_neg fun named => named.2.2 (by decide))

end Rule

end SyntaxTree
