import SyntaxTree.Proofs.Lexeme.Cut
import SyntaxTree.Proofs.Lexeme.Literals
import SyntaxTree.Proofs.Lexeme.Symbols

/-!
# Lexical rules and lexemes

A lexical rule reads one lexeme, the longest one at its place, and it reads that
lexeme exactly if it admits it. There are two exceptions. A number is read even
if a word goes on behind it, and then no lexeme ends there. And an operator may
bar characters that are no part of its lexeme.
-/

namespace SyntaxTree

open Lexeme

namespace Lexeme

variable {cs t : List Char}

theorem longest?_of_word (nonempty : ∃ c ∈ (word cs).head?, c.isDigit = false) :
    longest? cs = some (word cs) := by
  obtain ⟨c, head, digit⟩ := nonempty
  rcases cs with _ | ⟨d, cs⟩
  · cases head
  · cases letter : isWordChar d with
    | true =>
      rw [word_cons letter] at head
      cases head
      exact longest?_word letter digit
    | false => simp [word, letter] at head

theorem word_of_longest (h : longest? cs = some t)
    (letter : ∃ c ∈ t.head?, isWordChar c = true ∧ c.isDigit = false) : word cs = t := by
  obtain ⟨c, head, letter, digit⟩ := letter
  rw [longest?_head h] at head
  rcases cs with _ | ⟨d, cs⟩
  · cases head
  · cases head
    rw [longest?_word letter digit] at h
    exact Option.some.inj h

theorem longest?_of_symbol (h : symbol? cs = some t) : longest? cs = some t := by
  rcases cs with _ | ⟨c, cs⟩
  · cases h
  · have head : c ∈ symbolHeads := by
      refine Decidable.byContradiction fun off => ?_
      rw [symbol?_eq_none off] at h
      cases h
    obtain ⟨letter, quote, -⟩ := not_wordChar_of_symbolHead head
    rw [longest?_symbol letter quote, h]

theorem symbol?_of_longest (h : longest? cs = some t) (head : ∃ c ∈ t.head?, c ∈ symbolHeads) :
    symbol? cs = some t := by
  obtain ⟨c, head, inside⟩ := head
  rw [longest?_head h] at head
  rcases cs with _ | ⟨d, cs⟩
  · cases head
  · cases head
    obtain ⟨letter, quote, -⟩ := not_wordChar_of_symbolHead inside
    rwa [longest?_symbol letter quote] at h

theorem longest?_of_string (h : string? cs = some t) : longest? cs = some t := by
  obtain ⟨rest, tail, rfl, rfl, -⟩ := string?_eq_some h
  rw [longest?_quote, h]

theorem string?_of_longest (h : longest? cs = some t) (string : string? t = some t) :
    string? cs = some t := by
  obtain ⟨rest, tail, same, -, -⟩ := string?_eq_some string
  have head := longest?_head h
  rw [same] at head
  rcases cs with _ | ⟨c, cs⟩ <;> cases head
  rwa [longest?_quote] at h

end Lexeme

namespace Rule

variable {visible : Bool} {r : Rule} {p q : Position} {t : Lexeme}

/-- The lexemes that a lexical rule reads. -/
def admits : Rule → Lexeme → Bool
  | ident, t => isName t
  | number, t => number? t == some t
  | string, t => string? t == some t
  | r, t => (r.words.map String.toList).contains t || r.symbols.contains t

/-- The characters behind a lexeme are none that the rule bars there. -/
def isClear (r : Rule) (t : Lexeme) (behind : List Char) : Bool :=
  behind.head?.all fun d => !(r.barred t).contains d

/-- The function that a lexical rule scans with reads exactly the lexemes that the rule admits. -/
structure ReadsLexemes (r : Rule) (scan : List Char → Option (List Char)) : Prop where
  scans : ∀ visible, Pattern.Scans visible r.body scan
  sound : ∀ {cs t}, scan cs = some t → r.admits t = true ∧ t ≠ [] ∧
    r.isClear t (cs.drop t.length) = true ∧
    ((r = number → ∀ c ∈ (cs.drop t.length).head?, isWordChar c = false) → longest? cs = some t)
  complete : ∀ {cs t}, longest? cs = some t → r.admits t = true →
    r.isClear t (cs.drop t.length) = true → scan cs = some t

theorem admits_of_words (h : r.words ≠ []) :
    r.admits t = (r.words.map String.toList).contains t := by
  cases r <;> first | exact absurd rfl h | simp [admits, symbols]

theorem admits_of_symbols (h : r.symbols ≠ []) : r.admits t = r.symbols.contains t := by
  cases r <;> first | exact absurd rfl h | simp [admits, words]

/-- What the lexemes of a rule with fixed lexemes stand for. -/
theorem exists_of_admits {α : Type} (all : List α) (spelling : α → String)
    (every : (r.words.map String.toList ++ r.symbols).all (fun w =>
      all.any fun a => (spelling a).toList == w) = true)
    (fixed : r.words ≠ [] ∨ r.symbols ≠ []) (h : r.admits t = true) :
    ∃ a ∈ all, t = (spelling a).toList := by
  have mem : t ∈ r.words.map String.toList ++ r.symbols := by
    rcases fixed with words | symbols
    · rw [admits_of_words words, List.contains_iff_mem] at h
      exact List.mem_append_left _ h
    · rw [admits_of_symbols symbols, List.contains_iff_mem] at h
      exact List.mem_append_right _ h
  have found := List.all_eq_true.mp every t mem
  simp only [List.any_eq_true, beq_iff_eq] at found
  obtain ⟨a, inside, same⟩ := found
  exact ⟨a, inside, same.symm⟩

theorem isClear_of_symbols (h : r.symbols = []) (behind : List Char) :
    r.isClear t behind = true := by
  cases r <;> first | exact absurd h (by decide) | simp [isClear, barred]

/-- A fixed word begins with a letter. -/
theorem head_of_words (h : t ∈ r.words.map String.toList) :
    ∃ c ∈ t.head?, isWordChar c = true ∧ c.isDigit = false := by
  have every : ∀ t ∈ r.words.map String.toList,
      t.head?.any (fun c => isWordChar c && !c.isDigit) = true := by
    cases r <;> decide
  simpa [any_head?] using every t h

theorem head_of_symbols (h : t ∈ r.symbols) : ∃ c ∈ t.head?, c ∈ symbolHeads := by
  have every : ∀ t ∈ r.symbols, t.head?.any (symbolHeads.contains ·) = true := by
    cases r <;> decide
  simpa [any_head?] using every t h

theorem readsLexemes_words (h : r.words ≠ []) :
    ReadsLexemes r (Pattern.wordAmong (r.words.map String.toList)) where
  scans _ := scans_words h
  sound := by
    intro cs t found
    simp only [Pattern.wordAmong, Option.ite_none_right_eq_some, List.contains_iff_mem] at found
    obtain ⟨mem, same⟩ := found
    cases same
    have head := head_of_words mem
    have symbols : r.symbols = [] := by
      cases r <;> first | rfl | exact absurd rfl h
    refine ⟨by rw [admits_of_words h, List.contains_iff_mem.mpr mem], ?_,
      isClear_of_symbols symbols _, fun _ => longest?_of_word ?_⟩
    · intro none
      simp [none] at head
    · obtain ⟨c, head, -, digit⟩ := head
      exact ⟨c, head, digit⟩
  complete := by
    intro cs t longest admitted _
    rw [admits_of_words h, List.contains_iff_mem] at admitted
    rw [Pattern.wordAmong, word_of_longest longest (head_of_words admitted),
      if_pos (List.contains_iff_mem.mpr admitted)]

theorem readsLexemes_symbols (h : r.symbols ≠ []) : ReadsLexemes r r.body.scan where
  scans _ := Pattern.scans_scan (isFlat_of_symbols h)
  sound := by
    intro cs t found
    rw [scan_symbols h, Option.filter_eq_some_iff, Bool.and_eq_true] at found
    obtain ⟨found, mem, free⟩ := found
    obtain ⟨c, head, -⟩ := head_of_symbols (List.contains_iff_mem.mp mem)
    refine ⟨by rw [admits_of_symbols h, mem], ?_, free, fun _ => longest?_of_symbol found⟩
    rintro rfl
    cases head
  complete := by
    intro cs t longest admitted free
    rw [admits_of_symbols h] at admitted
    rw [scan_symbols h, Option.filter_eq_some_iff, Bool.and_eq_true]
    exact ⟨symbol?_of_longest longest (head_of_symbols (List.contains_iff_mem.mp admitted)),
      admitted, free⟩

theorem isName_head (h : isName t = true) :
    ∃ c ∈ t.head?, isWordChar c = true ∧ c.isDigit = false := by
  rw [isName, Bool.and_eq_true, Bool.and_eq_true, any_head?] at h
  obtain ⟨⟨run, c, head, digit⟩, -⟩ := h
  refine ⟨c, head, List.all_eq_true.mp run c (List.mem_of_mem_head? head), by simpa using digit⟩

theorem readsLexemes_ident : ReadsLexemes ident fun cs =>
    if isName (word cs) then some (word cs) else none where
  scans _ := scans_ident
  sound := by
    intro cs t found
    rw [Option.ite_none_right_eq_some] at found
    obtain ⟨name, same⟩ := found
    cases same
    obtain ⟨c, head, -, digit⟩ := isName_head name
    refine ⟨name, ?_, isClear_of_symbols rfl _, fun _ => longest?_of_word ⟨c, head, digit⟩⟩
    intro none
    simp [none] at head
  complete := by
    intro cs t longest admitted _
    have name : isName t = true := admitted
    rw [word_of_longest longest (isName_head name), if_pos name]

theorem number_head (h : number? t = some t) : ∃ c ∈ t.head?, c.isDigit = true := by
  unfold number? at h
  split at h
  · exact any_head?.mp ‹_›
  · cases h

theorem readsLexemes_number : ReadsLexemes number number? where
  scans _ := scans_number
  sound := by
    intro cs t found
    refine ⟨by simpa [admits] using number?_idem found, ?_, isClear_of_symbols rfl _,
      fun ends => longest?_of_number found (ends rfl)⟩
    rintro rfl
    cases number?_idem found
  complete := by
    intro cs t longest admitted _
    exact number?_of_longest (by simpa [admits] using admitted) longest

theorem readsLexemes_string : ReadsLexemes string string? where
  scans _ := scans_string
  sound := by
    intro cs t found
    obtain ⟨rest, tail, -, same, -⟩ := string?_eq_some found
    exact ⟨by simpa [admits] using string?_idem found, by simp [same], isClear_of_symbols rfl _,
      fun _ => longest?_of_string found⟩
  complete := by
    intro cs t longest admitted _
    exact string?_of_longest longest (by simpa [admits] using admitted)

theorem exists_readsLexemes (lexical : r.kind = .lexical) : ∃ scan, ReadsLexemes r scan := by
  have view : r.words ≠ [] ∨ r.symbols ≠ [] ∨ r = ident ∨ r = number ∨ r = string := by
    cases r <;> first | exact absurd lexical (by decide) | decide
  rcases view with words | symbols | rfl | rfl | rfl
  · exact ⟨_, readsLexemes_words words⟩
  · exact ⟨_, readsLexemes_symbols symbols⟩
  · exact ⟨_, readsLexemes_ident⟩
  · exact ⟨_, readsLexemes_number⟩
  · exact ⟨_, readsLexemes_string⟩

theorem lexical_visible (lexical : r.kind = .lexical) : (r.kind == .plain) = false := by
  rw [lexical]
  rfl

theorem lexical_named (lexical : r.kind = .lexical) : r.kind ≠ .silent := by
  rw [lexical]
  decide

/-- What a lexical rule reads is a lexeme that the rule admits, and it is the longest one
unless it is a number in front of a word. -/
theorem lexical_inv {phrases : List Phrase} (lexical : r.kind = .lexical)
    (h : Pattern.Reads true (.call r) p phrases q) :
    ∃ t, phrases = [⟨r, p.offset, t, []⟩] ∧ p.rest = t ++ q.rest ∧ r.admits t = true ∧
      t ≠ [] ∧ r.isClear t q.rest = true ∧
      ((r = number → ∀ c ∈ q.rest.head?, isWordChar c = false) → longest? p.rest = some t) := by
  obtain ⟨scan, spec⟩ := exists_readsLexemes lexical
  obtain ⟨text, children, rfl, stands, stop, inside⟩ := h.call_inv (lexical_named lexical)
  rw [lexical_visible lexical] at inside
  obtain ⟨t, found, stop', rfl⟩ := (spec.scans false).scanned inside
  obtain ⟨admitted, nonempty, free, longest⟩ := spec.sound found
  obtain ⟨front, -⟩ := (spec.scans false).reads found
  obtain ⟨rest, split⟩ := front
  have behind : q.rest = rest := by rw [stop', Position.rest_advance split.symm]
  have same : text = t := by
    rw [behind, ← split] at stands
    exact (List.append_cancel_right stands).symm
  rw [← split, List.drop_left, ← behind] at free longest
  rw [behind, split] at longest
  exact ⟨t, by rw [same], by rw [behind, split], admitted, nonempty, free, by rwa [behind]⟩

/-- A lexical rule reads a lexeme that it admits, if no character is barred behind it. -/
theorem reads_lexical {rest : List Char} (lexical : r.kind = .lexical)
    (longest : longest? p.rest = some t) (split : p.rest = t ++ rest)
    (admitted : r.admits t = true) (free : r.isClear t rest = true) :
    Pattern.Reads true (.call r) p [⟨r, p.offset, t, []⟩] (p.advance t) := by
  obtain ⟨scan, spec⟩ := exists_readsLexemes lexical
  have found : scan p.rest = some t := spec.complete longest admitted (by
    rwa [split, List.drop_left])
  have inside := ((spec.scans false).reads found).2
  rw [← lexical_visible lexical] at inside
  obtain ⟨text, stands, -, read⟩ := Pattern.reads_call (lexical_named lexical) inside
  rw [Position.rest_advance split, split] at stands
  rwa [← List.append_cancel_right stands] at read

/-- A lexical rule does not read in front of a lexeme that it does not admit. Only a number
might be read as the front of a word. -/
theorem fails_lexical (lexical : r.kind = .lexical) (longest : longest? p.rest = some t)
    (other : r.admits t = false) (digit : r = number → ∀ c ∈ t.head?, c.isDigit = false) :
    Pattern.Fails true (.call r) p := by
  obtain ⟨scan, spec⟩ := exists_readsLexemes lexical
  have missing : scan p.rest = none := by
    refine Option.eq_none_iff_forall_ne_some.mpr fun t' found => ?_
    obtain ⟨admitted, -, -, longest'⟩ := spec.sound found
    by_cases number : r = number
    · obtain ⟨c, head, isDigit⟩ := number_head (by simpa [number, admits] using admitted)
      obtain ⟨rest, split⟩ := ((spec.scans false).reads found).1
      have same : c ∈ t.head? := by
        rw [longest?_head longest, ← split, List.head?_append, Option.mem_def.mp head]
        rfl
      simp [digit number c same] at isDigit
    · rw [longest' (fun same => absurd same number), Option.some.injEq] at longest
      rw [longest, other] at admitted
      cases admitted
  have inside := (spec.scans false).fails missing
  rw [← lexical_visible lexical] at inside
  exact Pattern.fails_call (lexical_named lexical) inside

end Rule

end SyntaxTree
