/-!
# Lexemes

A source is cut into lexemes from left to right. At every point the longest of a
word, a number, a string literal and a symbol is taken, and between lexemes
blanks and comments are passed over. Nothing here knows the grammar, so the
lexemes of a source are a second account of its text.
-/

namespace SyntaxTree

/-- A lexeme as it stands in the source. -/
abbrev Lexeme := List Char

namespace Lexeme

def isWordChar (c : Char) : Bool := c.isAlphanum || c == '_'

/-- The longest run of word characters at the start of a text. -/
def word (cs : List Char) : Lexeme := cs.takeWhile isWordChar

def keywords : List String :=
  ["class", "public", "private", "static", "final", "void", "int", "char",
    "double", "String", "if", "else", "new", "for", "print", "main"]

def isKeyword (t : Lexeme) : Bool := keywords.any fun keyword => keyword.toList == t

/-- A word that does not begin with a digit and is no keyword. -/
def isName (t : Lexeme) : Bool :=
  t.all isWordChar && t.head?.any (fun c => !c.isDigit) && !isKeyword t

/-- A point and the digits behind it, if there are any. -/
def fraction : List Char → List Char
  | '.' :: d :: cs => if d.isDigit then '.' :: d :: cs.takeWhile Char.isDigit else []
  | _ => []

def number? (cs : List Char) : Option Lexeme :=
  if cs.head?.any Char.isDigit then
    some (cs.takeWhile Char.isDigit ++ fraction (cs.dropWhile Char.isDigit))
  else none

/-- A string literal behind its opening quote, up to and including the closing one. A
backslash takes the next character with it, whatever it is. -/
def stringTail? : List Char → Option (List Char)
  | [] => none
  | '"' :: _ => some ['"']
  | '\n' :: _ => none
  | '\\' :: c :: cs => (stringTail? cs).map fun t => '\\' :: c :: t
  | c :: cs => (stringTail? cs).map fun t => c :: t

def string? : List Char → Option Lexeme
  | '"' :: cs => (stringTail? cs).map fun t => '"' :: t
  | _ => none

/-- The symbols of two characters. -/
def pairs : List String :=
  ["++", "--", "||", "&&", "==", "!=", ">=", "<=",
    "+=", "-=", "*=", "/=", "%=", "&=", "^=", "|="]

/-- The symbols of one character. -/
def singles : List Char :=
  ['+', '-', '*', '/', '%', '>', '<', '=', '\x7b', '\x7d', '(', ')', '[', ']', ';', ',']

def symbol? : List Char → Option Lexeme
  | [] => none
  | [c] => if singles.contains c then some [c] else none
  | c :: d :: _ =>
    if pairs.any fun pair => pair.toList == [c, d] then some [c, d]
    else if singles.contains c then some [c]
    else none

/-- The longer of two lexemes at the same place. -/
def longer : Option Lexeme → Option Lexeme → Option Lexeme
  | none, t => t
  | some s, none => some s
  | some s, some t => if s.length < t.length then some t else some s

/-- The longest lexeme at the start of a text. -/
def longest? (cs : List Char) : Option Lexeme :=
  longer (if (word cs).isEmpty then none else some (word cs))
    (longer (number? cs) (longer (string? cs) (symbol? cs)))

/-- The blanks that may stand between lexemes. -/
def isGap (c : Char) : Bool := c == ' ' || c == '\t' || c == '\r' || c == '\n'

/-- A block comment behind its opening mark, up to and including the closing one. -/
def blockTail? : List Char → Option (List Char)
  | [] => none
  | '*' :: '/' :: _ => some ['*', '/']
  | c :: cs => (blockTail? cs).map fun t => c :: t

/-- A comment at the start of a text. A line comment ends before the line feed. -/
def comment? : List Char → Option (List Char)
  | '/' :: '/' :: cs => some ('/' :: '/' :: cs.takeWhile fun c => c != '\n')
  | '/' :: '*' :: cs => (blockTail? cs).map fun t => '/' :: '*' :: t
  | _ => none

theorem comment?_ne_nil {cs t : List Char} (h : comment? cs = some t) : t ≠ [] := by
  rintro rfl
  unfold comment? at h
  split at h <;> simp at h

/-- The blanks and comments at the start of a text. -/
def gap : List Char → List Char
  | [] => []
  | c :: cs =>
    if isGap c then c :: gap cs
    else
      match _h : comment? (c :: cs) with
      | some t => t ++ gap ((c :: cs).drop t.length)
      | none => []
termination_by cs => cs.length
decreasing_by
  · simp
  · have positive : 0 < t.length := List.length_pos_iff.mpr (comment?_ne_nil _h)
    simp only [List.length_drop, List.length_cons]
    omega

/-- The text behind the blanks and comments at its start. -/
def skip (cs : List Char) : List Char := cs.drop (gap cs).length

end Lexeme

end SyntaxTree
