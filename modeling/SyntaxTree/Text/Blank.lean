/-!
# Blank characters and words

A word is a maximal run of characters that are not blank. Blank means the
Unicode property White_Space, which is wider than the blanks that the grammar
skips: those are only space, tab, carriage return and line feed.
-/

namespace SyntaxTree.Text

/-- The ranges of code points with the property White_Space. -/
def blankRanges : List (Nat × Nat) :=
  [(0x09, 0x0d), (0x20, 0x20), (0x85, 0x85), (0xa0, 0xa0), (0x1680, 0x1680),
    (0x2000, 0x200a), (0x2028, 0x2029), (0x202f, 0x202f), (0x205f, 0x205f), (0x3000, 0x3000)]

def isBlank (c : Char) : Bool :=
  blankRanges.any fun range => range.1 ≤ c.toNat && c.toNat ≤ range.2

/-- The first word at or behind the start of a text, if it has one. -/
def firstWord? (cs : List Char) : Option (List Char) :=
  match cs.dropWhile isBlank with
  | [] => none
  | c :: rest => some ((c :: rest).takeWhile fun d => !isBlank d)

/-- A text has no word exactly if it is blank throughout. -/
theorem firstWord?_eq_none_iff {cs : List Char} :
    firstWord? cs = none ↔ ∀ c ∈ cs, isBlank c = true := by
  induction cs with
  | nil => simp [firstWord?]
  | cons c cs ih =>
    by_cases blank : isBlank c = true
    · have skip : firstWord? (c :: cs) = firstWord? cs := by
        simp [firstWord?, List.dropWhile_cons_of_pos blank]
      simp [skip, ih, blank]
    · simp [firstWord?, blank]

end SyntaxTree.Text
