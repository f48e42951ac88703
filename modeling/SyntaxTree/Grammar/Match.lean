import SyntaxTree.Grammar.Body
import SyntaxTree.Grammar.Frontier
import SyntaxTree.Grammar.Phrase

/-!
# Matching

`Pattern.run` matches a pattern at a position. It returns what was read and the
phrases in it, or that the pattern does not match there, and in both cases the
frontier that is known by then.

The recursion is on an explicit budget, one unit per nested step. A match needs
a budget that is linear in the text left, because no rule comes back to itself
without reading a character and no repeated item is empty. `Position.budget`
provides it, and running out of it is kept apart from not matching.
-/

namespace SyntaxTree

/-- A place in the source: its byte offset and the text from there on. -/
structure Position where
  offset : Nat
  rest : List Char
  deriving DecidableEq, Repr

namespace Position

def atStart (text : List Char) : Position := ⟨0, text⟩

/-- The position behind a stretch of text that stands here. -/
def advance (p : Position) (text : List Char) : Position :=
  ⟨p.offset + Text.byteLength text, p.rest.drop text.length⟩

/-- Enough nested steps for any match from here on. -/
def budget (p : Position) : Nat := 64 * (p.rest.length + 1)

end Position

inductive Outcome where
  /-- The text read, the position behind it, and the phrases in it. -/
  | matched (text : List Char) (next : Position) (phrases : List Phrase)
  | failed
  | exhausted

namespace Pattern

/-- Match a pattern within a budget. Where phrases are not `visible`, which is
inside a lexical rule and behind `absent`, rules leave neither phrases nor
traces on the frontier. -/
def run : Nat → Bool → Pattern → Position → Frontier → Outcome × Frontier
  | 0, _, _, _, f => (.exhausted, f)
  | _ + 1, _, literal text, p, f =>
    if text.isPrefixOf p.rest then (.matched text (p.advance text) [], f) else (.failed, f)
  | _ + 1, _, char among, p, f =>
    match p.rest with
    | [] => (.failed, f)
    | c :: _ => if among.contains c then (.matched [c] (p.advance [c]) [], f) else (.failed, f)
  | budget + 1, visible, call rule, p, f =>
    if visible ∧ rule.kind ≠ .silent then
      match run budget (rule.kind == .plain) rule.body p f with
      | (.matched text next phrases, g) =>
        (.matched text next [⟨rule, p.offset, text, phrases⟩], g)
      | (.failed, g) => (.failed, g.record rule p.offset (f.countAt p.offset))
      | (.exhausted, g) => (.exhausted, g)
    else run budget visible rule.body p f
  | budget + 1, visible, seq first second, p, f =>
    match run budget visible first p f with
    | (.matched text next phrases, g) =>
      match run budget visible second next g with
      | (.matched text' next' phrases', h) =>
        (.matched (text ++ text') next' (phrases ++ phrases'), h)
      | (stopped, h) => (stopped, h)
    | (stopped, g) => (stopped, g)
  | budget + 1, visible, choice first second, p, f =>
    match run budget visible first p f with
    | (.failed, g) => run budget visible second p g
    | (settled, g) => (settled, g)
  | budget + 1, visible, many item, p, f =>
    match run budget visible item p f with
    | (.matched text next phrases, g) =>
      match run budget visible (many item) next g with
      | (.matched text' next' phrases', h) =>
        (.matched (text ++ text') next' (phrases ++ phrases'), h)
      | (stopped, h) => (stopped, h)
    | (.failed, g) => (.matched [] p [], g)
    | (.exhausted, g) => (.exhausted, g)
  | budget + 1, _, absent inner, p, f =>
    match run budget false inner p f with
    | (.matched _ _ _, g) => (.failed, g)
    | (.failed, g) => (.matched [] p [], g)
    | (.exhausted, g) => (.exhausted, g)

end Pattern

namespace Rule

/-- Match a rule at a position. -/
def matchAt (rule : Rule) (p : Position) : Outcome × Frontier :=
  Pattern.run p.budget true (.call rule) p .start

/-- The phrases of a rule at the start of a text, which need not be read to its
end, or how far any attempt came. -/
def phrases (rule : Rule) (text : List Char) : Except Frontier (List Phrase) :=
  match rule.matchAt (.atStart text) with
  | (.matched _ _ phrases, _) => .ok phrases
  | (_, frontier) => .error frontier

end Rule

end SyntaxTree
