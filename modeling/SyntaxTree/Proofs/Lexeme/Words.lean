import SyntaxTree.Proofs.Lexeme.Longest
import SyntaxTree.Proofs.Matching.Scans

/-!
# The rules for words

Fixed words and names are read off the longest run of word characters. A rule
for fixed words commits to the first of its words that the text begins with.
None of its words begins with another one, so the first such word is the whole
run or no word of the rule is.
-/

namespace SyntaxTree

open Lexeme

namespace Pattern

variable {visible : Bool} {cs : List Char}

theorem scan_oneOf_words (words : List String) (cs : List Char) :
    scan (oneOf (words.map word)) cs =
      (words.map String.toList).find? fun w => w.isPrefixOf cs := by
  induction words with
  | nil => simp [oneOf, empty, scan]
  | cons w words ih =>
    have step (p : Pattern) (h : p.scan cs =
          (words.map String.toList).find? fun w => w.isPrefixOf cs) :
        scan (choice (word w) p) cs =
          ((w :: words).map String.toList).find? fun w => w.isPrefixOf cs := by
      rw [scan, h, word, scan, List.map_cons, List.find?_cons]
      split <;> simp [*]
    cases words with
    | nil =>
      simp only [List.map_cons, List.map_nil, oneOf, word, scan, List.find?_cons, List.find?_nil]
      split <;> simp [*]
    | cons w' words => exact step _ ih

theorem isFlat_oneOf_words (words : List String) : (oneOf (words.map word)).isFlat = true := by
  induction words with
  | nil => rfl
  | cons w words ih =>
    cases words with
    | nil => rfl
    | cons w' words => exact ih

theorem scans_wordChar : Scans visible wordChar (scanChar isWordChar) := by
  refine (Scans.call (.inr rfl) (scans_scan rfl)).congr fun cs => ?_
  cases cs with
  | nil => simp [Rule.body, word, scan, scanChar]
  | cons c cs =>
    simp only [Rule.body, word, scan, scanChar, CharClass.contains, isWordChar]
    by_cases letter : c.isAlphanum = true
    · simp [letter]
    · by_cases line : c = '_'
      · simp [line]
      · simp [letter, line, Ne.symm line]

/-- A word that the text begins with begins the longest run of word characters. -/
theorem prefix_word {t : List Char} (run : t.all isWordChar = true) (h : t <+: cs) :
    t <+: Lexeme.word cs := by
  obtain ⟨rest, rfl⟩ := h
  rw [Lexeme.word, List.takeWhile_append_of_pos (List.all_eq_true.mp run)]
  exact List.prefix_append _ _

/-- What the rules for fixed words rely on: their words consist of word characters, and
none begins with another one. -/
def areApart (words : List Lexeme) : Bool :=
  words.all fun w => w.all isWordChar && words.all fun w' => !w'.isPrefixOf w || w' == w

theorem all_of_areApart {words : List Lexeme} {w : Lexeme} (apart : areApart words = true)
    (mem : w ∈ words) : w.all isWordChar = true :=
  ((Bool.and_eq_true _ _).mp (List.all_eq_true.mp apart w mem)).1

/-- A word that begins another one is that one. -/
theorem eq_of_isPrefix {words : List Lexeme} {w w' : Lexeme} (apart : areApart words = true)
    (mem : w ∈ words) (mem' : w' ∈ words) (front : w' <+: w) : w' = w := by
  have others := ((Bool.and_eq_true _ _).mp (List.all_eq_true.mp apart w mem)).2
  have this := List.all_eq_true.mp others w' mem'
  rwa [List.isPrefixOf_iff_prefix.mpr front, Bool.not_true, Bool.false_or, beq_iff_eq] at this

/-- The whole run of word characters, if it is one of some words. -/
def wordAmong (words : List Lexeme) (cs : List Char) : Option Lexeme :=
  if words.contains (Lexeme.word cs) then some (Lexeme.word cs) else none

theorem scans_wholeWord {words : List String} (apart : areApart (words.map String.toList) = true) :
    Scans visible (wholeWord words) (wordAmong (words.map String.toList)) := by
  refine ((scans_scan (isFlat_oneOf_words words)).seq scans_wordChar.absent).congr fun cs => ?_
  rw [scan_oneOf_words]
  generalize words.map String.toList = list at apart ⊢
  cases found : list.find? fun w => w.isPrefixOf cs with
  | none =>
    have missing : Lexeme.word cs ∉ list := fun mem => by
      have := List.find?_eq_none.mp found _ mem
      exact this (List.isPrefixOf_iff_prefix.mpr (word_isPrefix cs))
    simp [wordAmong, missing]
  | some w =>
    have mem := List.mem_of_find?_eq_some found
    have front : w <+: cs := List.isPrefixOf_iff_prefix.mp (by simpa using List.find?_some found)
    have run : w.all isWordChar = true := all_of_areApart apart mem
    obtain ⟨rest, rfl⟩ := front
    rw [Option.bind_some, List.drop_left]
    by_cases whole : Lexeme.word (w ++ rest) = w
    · have ends := word_ends whole
      have whole : wordAmong list (w ++ rest) = some w := by
        rw [wordAmong, whole, if_pos (List.contains_iff_mem.mpr mem)]
      rw [whole]
      rcases rest with _ | ⟨c, rest⟩
      · simp [scanChar]
      · simp [scanChar, ends c rfl]
    · have missing : Lexeme.word (w ++ rest) ∉ list := fun mem' =>
        whole (eq_of_isPrefix apart mem' mem (prefix_word run (List.prefix_append _ _))).symm
      rcases rest with _ | ⟨c, rest⟩
      · exact absurd (word_append run (by simp)) whole
      · cases letter : isWordChar c with
        | true => simp [wordAmong, missing, scanChar, letter]
        | false => exact absurd (word_append run (by simp [letter])) whole

end Pattern

namespace Rule

open Pattern

variable {visible : Bool}

/-- The fixed words of a rule. -/
def words : Rule → List String
  | keyword => keywords
  | kwClass => ["class"]
  | kwMain => ["main"]
  | kwIf => ["if"]
  | kwElse => ["else"]
  | kwFor => ["for"]
  | kwNew => ["new"]
  | access => ["public", "private"]
  | qualifier => ["static", "final"]
  | dataType => ["int", "char", "double", "String"]
  | voidType => ["void"]
  | _ => []

theorem body_of_words {r : Rule} (h : r.words ≠ []) : r.body = wholeWord r.words := by
  cases r <;> first | rfl | exact absurd rfl h

theorem areApart_words (r : Rule) : areApart (r.words.map String.toList) = true := by
  cases r <;> decide

theorem scans_words {r : Rule} (h : r.words ≠ []) :
    Scans visible r.body (wordAmong (r.words.map String.toList)) := by
  rw [body_of_words h]
  exact scans_wholeWord r.areApart_words

theorem contains_keywords (t : Lexeme) :
    (keyword.words.map String.toList).contains t = isKeyword t := by
  rw [words, isKeyword, List.contains_eq_any_beq, List.any_map]
  refine congrArg (keywords.any ·) (funext fun w => ?_)
  exact Bool.beq_comm

theorem not_isDigit_of_isAlpha {c : Char} (h : c.isAlpha = true) : c.isDigit = false := by
  have letter : 'A'.val ≤ c.val := by
    rcases (Bool.or_eq_true _ _).mp h with upper | lower
    · exact (of_decide_eq_true upper).1
    · exact UInt32.le_trans (by decide) (of_decide_eq_true ((Bool.and_eq_true _ _).mp lower).1)
  rw [Bool.eq_false_iff]
  intro digit
  have nine : c.val ≤ '9'.val := of_decide_eq_true ((Bool.and_eq_true _ _).mp digit).2
  exact absurd (UInt32.le_trans letter nine) (by decide)

/-- A name begins with a word character that is no digit. -/
theorem scan_nameHead (c : Char) (cs : List Char) :
    (choice (char .letter) (Pattern.word "_")).scan (c :: cs) =
      if isWordChar c && !c.isDigit then some [c] else none := by
  simp only [scan, Pattern.word, CharClass.contains, isWordChar, Char.isAlphanum]
  by_cases letter : c.isAlpha = true
  · simp [letter, not_isDigit_of_isAlpha letter]
  · by_cases line : c = '_'
    · simp [line, show Char.isDigit '_' = false from rfl]
    · simp [letter, line, Ne.symm line]

/-- A name is the whole run of word characters, unless it begins with a digit or is a keyword. -/
theorem scans_ident : Scans visible ident.body fun cs =>
    if isName (Lexeme.word cs) then some (Lexeme.word cs) else none := by
  have keywordScans : Scans false (call keyword) (wordAmong (keyword.words.map String.toList)) :=
    Scans.call (.inl rfl) (scans_words (by decide))
  have first : Scans visible (choice (char .letter) (Pattern.word "_")) (scan _) :=
    scans_scan rfl
  refine (keywordScans.absent.seq (first.seq scans_wordChar.many_char)).congr fun cs => ?_
  have run : (Lexeme.word cs).all isWordChar = true := all_word cs
  rw [wordAmong, contains_keywords, isName, run, Bool.true_and]
  cases isKeyword (Lexeme.word cs) with
  | true => simp
  | false =>
    simp only [Bool.false_eq_true, if_false, Option.isSome_none, Option.bind_some,
      List.length_nil, List.drop_zero]
    rcases cs with _ | ⟨c, cs⟩
    · simp [scan, Pattern.word, Lexeme.word]
    · rw [scan_nameHead]
      by_cases letter : isWordChar c = true
      · cases digit : c.isDigit <;> simp [Lexeme.word, letter, digit]
      · simp [letter, Lexeme.word]

end Rule

end SyntaxTree
