import SyntaxTree.Proofs.Lexeme.Rules
import SyntaxTree.Proofs.Matching.Budget

/-!
# Verdicts of patterns that scan

`Scans` speaks of some budget. Within any budget that is enough, a pattern that scans comes to the
verdict of its function: what the function gives was read, or the pattern does not match. A lexical
rule hides what is inside it, so a match of it leaves one phrase, which holds the text read.
-/

namespace SyntaxTree

namespace Pattern

variable {n : Nat} {visible : Bool} {pattern : Pattern} {p : Position}
variable {scan : List Char → Option (List Char)}

theorem Scans.outcome_eq (h : Scans visible pattern scan)
    (settled : outcome n visible pattern p ≠ .exhausted) :
    outcome n visible pattern p =
      match scan p.rest with
      | some text => .matched text (p.advance text) []
      | none => .failed := by
  cases found : outcome n visible pattern p with
  | matched text q phrases =>
    obtain ⟨text', scanned, rfl, rfl⟩ := h.scanned ⟨n, text, found⟩
    obtain ⟨⟨rest, stands⟩, -⟩ := h.reads scanned
    have same : text ++ rest = text' ++ rest := by
      rw [stands, (outcome_text found).1, Position.rest_advance stands.symm]
    rw [scanned, List.append_cancel_right same]
  | failed => rw [h.missed ⟨n, found⟩]
  | exhausted => exact absurd found settled

/-- The verdict of a run does not depend on what has failed before it. -/
theorem Scans.run_eq (h : Scans visible pattern scan) (progressive : pattern.isProgressive = true)
    (enough : 64 * p.rest.length + pattern.cost ≤ n) (f : Frontier) :
    (run n visible pattern p f).1 =
      match scan p.rest with
      | some text => .matched text (p.advance text) []
      | none => .failed := by
  rw [run_fst]
  exact h.outcome_eq (outcome_ne_exhausted progressive enough)

end Pattern

namespace Rule

open Pattern

/-- The outcome of a lexical rule that has read the given text. -/
def reading (r : Rule) (p : Position) (text : List Char) : Outcome :=
  .matched text (p.advance text) [⟨r, p.offset, text, []⟩]

variable {r : Rule} {p : Position} {scan : List Char → Option (List Char)}

/-- A lexical rule reads what its pattern scans. -/
theorem matchAt_of_scans (lexical : r.kind = .lexical) (h : Scans false r.body scan) :
    (r.matchAt p).1 =
      match scan p.rest with
      | some text => r.reading p text
      | none => .failed := by
  have rank := rank_lt r
  have cost := cost_body r
  have inside : outcome (64 * p.rest.length + 63) false r.body p = _ :=
    h.outcome_eq (outcome_ne_exhausted (isProgressive_body r) (by omega))
  have whole : (r.matchAt p).1 = outcome (64 * p.rest.length + 63 + 1) true (call r) p := rfl
  rw [whole, outcome_call_visible _ _ (lexical_named lexical), lexical_visible lexical, inside]
  cases scan p.rest <;> rfl

end Rule

end SyntaxTree
