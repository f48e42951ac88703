import SyntaxTree.Proofs.Acceptance.Takes

/-!
# Refusals by the first lexeme

Most alternatives that the grammar tries in vain fail at the first lexeme that is
left. Whether a rule can begin with a lexeme is computed from the shape of the
lexeme: a name, a number, a string literal, or one of the fixed lexemes.
-/

namespace SyntaxTree

open Lexeme

namespace Lexeme

/-- What is known of a lexeme. -/
inductive Shape where
  | name
  | number
  | string
  | fixed (t : Lexeme)
  deriving DecidableEq

namespace Shape

def covers : Shape → Lexeme → Bool
  | name, t => isName t
  | number, t => number? t == some t
  | string, t => string? t == some t
  | fixed s, t => t == s

/-- The characters that a lexeme of the shape may begin with. -/
def opensWith : Shape → Char → Bool
  | name, c => isWordChar c && !c.isDigit
  | number, c => c.isDigit
  | string, c => c == '"'
  | fixed s, c => s.head? == some c

variable {shape : Shape} {t : Lexeme} {c : Char}

theorem head_of_covers (h : shape.covers t = true) (head : t.head? = some c) :
    shape.opensWith c = true := by
  cases shape with
  | name =>
    obtain ⟨d, head', letter, digit⟩ := Rule.isName_head h
    obtain rfl : d = c := Option.some.inj (head'.symm.trans head)
    simp [opensWith, letter, digit]
  | number =>
    obtain ⟨d, head', digit⟩ := Rule.number_head (eq_of_beq h)
    obtain rfl : d = c := Option.some.inj (head'.symm.trans head)
    exact digit
  | string =>
    obtain ⟨rest, tail, -, same, -⟩ := string?_eq_some (eq_of_beq h)
    rw [same] at head
    cases head
    rfl
  | fixed s =>
    obtain rfl : t = s := eq_of_beq h
    simp [opensWith, head]

end Shape

end Lexeme

namespace Rule

variable {r : Rule} {shape : Shape} {t : Lexeme}

/-- The lexical rule reads no lexeme of the shape. -/
def bars (r : Rule) : Shape → Bool
  | .name => r != ident
  | .number => r != number
  | .string => r != string
  | .fixed s => !r.admits s && (r != number || !s.head?.any Char.isDigit)

theorem isKeyword_of_words (h : t ∈ r.words.map String.toList) : isKeyword t = true := by
  have every : ∀ t ∈ r.words.map String.toList, isKeyword t = true := by
    cases r <;> decide
  exact every t h

theorem keyword_head (h : isKeyword t = true) :
    ∃ c ∈ t.head?, isWordChar c = true ∧ c.isDigit = false := by
  have every : (keywords.all fun word =>
      word.toList.head?.any fun c => isWordChar c && !c.isDigit) = true := by decide
  simp only [isKeyword, List.any_eq_true, beq_iff_eq] at h
  obtain ⟨word, mem, rfl⟩ := h
  have head := List.all_eq_true.mp every word mem
  obtain ⟨c, first, letter⟩ := any_head?.mp head
  exact ⟨c, first, by simpa using letter⟩

/-- The first character of a lexeme that the rule admits. -/
inductive StartsWith (t : Lexeme) : Rule → Char → Prop
  | name {c : Char} (letter : isWordChar c = true) (digit : c.isDigit = false) :
      StartsWith t ident c
  | number {c : Char} (digit : c.isDigit = true) : StartsWith t number c
  | string : StartsWith t string '"'
  | keyword {r : Rule} {c : Char} (word : isKeyword t = true) (letter : isWordChar c = true)
      (digit : c.isDigit = false) : StartsWith t r c
  | symbol {r : Rule} {c : Char} (head : c ∈ symbolHeads) : StartsWith t r c

theorem exists_startsWith (lexical : r.kind = .lexical) (h : r.admits t = true) :
    ∃ c ∈ t.head?, StartsWith t r c := by
  have view : r.words ≠ [] ∨ r.symbols ≠ [] ∨ r = ident ∨ r = number ∨ r = string := by
    cases r <;> first | exact absurd lexical (by decide) | decide
  rcases view with words | symbols | rfl | rfl | rfl
  · rw [admits_of_words words, List.contains_iff_mem] at h
    have word := isKeyword_of_words h
    obtain ⟨c, first, letter, digit⟩ := keyword_head word
    exact ⟨c, first, .keyword word letter digit⟩
  · rw [admits_of_symbols symbols, List.contains_iff_mem] at h
    obtain ⟨c, first, head⟩ := head_of_symbols h
    exact ⟨c, first, .symbol head⟩
  · obtain ⟨c, first, letter, digit⟩ := isName_head h
    exact ⟨c, first, .name letter digit⟩
  · obtain ⟨c, first, digit⟩ := number_head (eq_of_beq h)
    exact ⟨c, first, .number digit⟩
  · obtain ⟨rest, tail, -, same, -⟩ := string?_eq_some (eq_of_beq h)
    exact ⟨'"', by rw [same]; rfl, .string⟩

/-- A rule that reads no lexeme of a shape admits none: it would have to begin like another one. -/
theorem admits_of_bars (lexical : r.kind = .lexical) (barred : r.bars shape = true)
    (covered : shape.covers t = true) : r.admits t = false := by
  rw [Bool.eq_false_iff]
  intro admitted
  obtain ⟨c, first, starts⟩ := exists_startsWith lexical admitted
  have opens : shape.opensWith c = true := Shape.head_of_covers covered first
  cases shape with
  | fixed s =>
    obtain rfl : t = s := eq_of_beq covered
    simp [bars, admitted] at barred
  | name =>
    have free : isKeyword t = false := by
      simp only [Shape.covers, isName, Bool.and_eq_true, Bool.not_eq_true'] at covered
      exact covered.2
    cases starts with
    | name => exact absurd barred (by decide)
    | number digit => simp [Shape.opensWith, digit] at opens
    | string => exact absurd opens (by decide)
    | keyword word => simp [free] at word
    | symbol head => simp [Shape.opensWith, (not_wordChar_of_symbolHead head).1] at opens
  | number =>
    cases starts with
    | name _ digit => simp [Shape.opensWith, digit] at opens
    | number => exact absurd barred (by decide)
    | string => exact absurd opens (by decide)
    | keyword _ _ digit => simp [Shape.opensWith, digit] at opens
    | symbol head =>
      have letter := isWordChar_of_isDigit opens
      simp [(not_wordChar_of_symbolHead head).1] at letter
  | string =>
    obtain rfl : c = '"' := eq_of_beq opens
    cases starts with
    | name letter => exact absurd letter (by decide)
    | number digit => exact absurd digit (by decide)
    | string => exact absurd barred (by decide)
    | keyword _ letter => exact absurd letter (by decide)
    | symbol head => exact absurd head (by decide)

end Rule

namespace Pattern

open Rule

variable {pattern : Pattern} {shape : Shape} {t : Lexeme} {us : List Lexeme} {p : Position}
variable {r : Rule}

/-- The pattern cannot begin with a lexeme of the shape, if the rules that avoid it cannot. -/
def avoidsBy (avoided : Rule → Bool) (shape : Shape) : Pattern → Bool
  | literal [] => false
  | literal (c :: _) => !shape.opensWith c
  | call r => avoided r
  | seq a _ => avoidsBy avoided shape a
  | choice a b => avoidsBy avoided shape a && avoidsBy avoided shape b
  | char _ | many _ | absent _ => false

/-- The rule cannot begin with a lexeme of the shape, as far as it is followed. -/
def ruleAvoids (shape : Shape) : Nat → Rule → Bool
  | 0, _ => false
  | depth + 1, r =>
    if r.kind = .lexical then r.bars shape else r.body.avoidsBy (ruleAvoids shape depth) shape

/-- The pattern cannot begin with a lexeme of the shape. No rule of the grammar has to be followed
deeper than this to its first lexeme. -/
def avoids (shape : Shape) (pattern : Pattern) : Bool :=
  pattern.avoidsBy (ruleAvoids shape 12) shape

theorem fails_of_avoidsBy {avoided : Rule → Bool} (covered : shape.covers t = true)
    (longest : longest? p.rest = some t) (rules : ∀ r, avoided r = true → Fails true (call r) p)
    (h : pattern.avoidsBy avoided shape = true) : Fails true pattern p := by
  induction pattern with
  | literal text =>
    rcases text with _ | ⟨c, text⟩
    · cases h
    · rw [avoidsBy, Bool.not_eq_true'] at h
      refine fails_literal fun front => ?_
      obtain ⟨behind, same⟩ := front
      have head : t.head? = some c := by
        rw [longest?_head longest, ← same]
        rfl
      simp [Shape.head_of_covers covered head] at h
  | call r => exact rules r h
  | seq a b iha _ => exact fails_seq_left (iha h)
  | choice a b iha ihb =>
    rw [avoidsBy, Bool.and_eq_true] at h
    exact fails_choice (iha h.1) (ihb h.2)
  | char _ | many _ _ | absent _ _ => cases h

theorem fails_of_ruleAvoids {depth : Nat} (covered : shape.covers t = true)
    (longest : longest? p.rest = some t) (h : ruleAvoids shape depth r = true) :
    Fails true (call r) p := by
  induction depth generalizing r with
  | zero => cases h
  | succ depth ih =>
    rw [ruleAvoids] at h
    split at h
    · rename_i lexical
      refine fails_lexical lexical longest (admits_of_bars lexical h covered) ?_
      rintro rfl c head
      have opens := Shape.head_of_covers covered head
      rw [Bool.eq_false_iff]
      intro digit
      cases shape with
      | name => simp [Shape.opensWith, digit] at opens
      | number => exact absurd h (by decide)
      | string =>
        obtain rfl : c = '"' := eq_of_beq opens
        exact absurd digit (by decide)
      | fixed s =>
        obtain rfl : t = s := eq_of_beq covered
        have head' : t.head? = some c := head
        simp [bars, head', digit] at h
    · rename_i other
      have body : Fails true r.body p := fails_of_avoidsBy covered longest (fun r => ih) h
      cases kind : r.kind with
      | plain => exact Fails.node kind body
      | lexical => exact absurd kind other
      | silent => exact fails_call_hidden (.inr kind) body

/-- A pattern fails in front of a lexeme of a shape that it cannot begin with, in any text. -/
theorem fails_of_avoids (covered : shape.covers t = true) (longest : longest? p.rest = some t)
    (h : pattern.avoids shape = true) : Fails true pattern p :=
  fails_of_avoidsBy covered longest (fun _ => fails_of_ruleAvoids covered longest) h

/-- A pattern is refused by the shape of the first lexeme. -/
theorem refuses_of_avoids (covered : shape.covers t = true) (h : pattern.avoids shape = true) :
    Refuses pattern (t :: us) := by
  intro p stands
  obtain ⟨rest, -, longest, -, -⟩ := stands.split
  exact fails_of_avoids covered longest h

/-- A pattern is refused by a fixed lexeme. -/
theorem refuses_fixed (h : pattern.avoids (.fixed t) = true) :
    Refuses pattern (t :: us) := by
  have covered : (Shape.fixed t).covers t = true := beq_self_eq_true t
  exact refuses_of_avoids covered h

end Pattern

end SyntaxTree
