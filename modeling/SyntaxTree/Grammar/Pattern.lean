import SyntaxTree.Grammar.Rule

/-!
# Patterns

A pattern says what text may stand at a position. A choice takes its first
branch that matches and never comes back to the others, and a repetition takes
as many items as it can.

Nothing is skipped inside a pattern unless it says so: `spaced` and
`spacedMany` put the skipping of blanks and comments between their items. So
what is skipped before an item that is absent belongs to the match, and what is
skipped before an item that fails does not.
-/

namespace SyntaxTree

/-- The classes of single characters that the grammar tells apart. Letters and
digits are those of ASCII. -/
inductive CharClass where
  | any
  | letter
  | digit
  | alphanumeric
  | exactly (c : Char)
  deriving DecidableEq, Repr

namespace CharClass

def contains : CharClass → Char → Bool
  | any, _ => true
  | letter, c => c.isAlpha
  | digit, c => c.isDigit
  | alphanumeric, c => c.isAlphanum
  | exactly d, c => c == d

end CharClass

inductive Pattern where
  /-- The given characters, one after the other. -/
  | literal (text : List Char)
  | char (among : CharClass)
  | call (rule : Rule)
  | seq (first second : Pattern)
  | choice (first second : Pattern)
  /-- As many items as match, perhaps none. -/
  | many (item : Pattern)
  /-- Matches the empty text where the inner pattern does not match. -/
  | absent (inner : Pattern)
  deriving DecidableEq, Repr

namespace Pattern

def empty : Pattern := literal []

def word (text : String) : Pattern := literal text.toList

def optional (item : Pattern) : Pattern := choice item empty

/-- Everything that may stand between two tokens. -/
def skipped : Pattern :=
  seq (many (call .whitespace)) (many (seq (call .comment) (many (call .whitespace))))

/-- One after the other, with nothing in between. -/
def joined : List Pattern → Pattern
  | [] => empty
  | [item] => item
  | item :: next :: rest => seq item (joined (next :: rest))

/-- One after the other, with skipped text in between. -/
def spaced : List Pattern → Pattern
  | [] => empty
  | [item] => item
  | item :: next :: rest => seq item (seq skipped (spaced (next :: rest)))

/-- The first of several that matches. -/
def oneOf : List Pattern → Pattern
  | [] => absent empty
  | [item] => item
  | item :: next :: rest => choice item (oneOf (next :: rest))

/-- As many items as match, with skipped text in between. -/
def spacedMany (item : Pattern) : Pattern :=
  optional (seq item (many (seq skipped item)))

/-- At least one item. -/
def spacedSome (item : Pattern) : Pattern :=
  spaced [item, spacedMany item]

end Pattern

end SyntaxTree
