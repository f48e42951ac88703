import SyntaxTree.Proofs.Lexeme.Longest
import SyntaxTree.Proofs.Matching.Scans

/-!
# The rules for operators

An operator rule looks at the raw characters behind what it reads. Taken
together, its order of branches and its looks ahead make it read one of its
symbols exactly where the symbol is the longest one. Some look further than
that: after a sign they bar another sign, and after `>` another `>`, although no
longer symbol begins there.
-/

namespace SyntaxTree.Rule

open Lexeme Pattern

/-- The symbols of an operator rule. -/
def symbols : Rule → List Lexeme
  | assignOp => [['+', '='], ['-', '='], ['*', '='], ['/', '='], ['%', '='], ['&', '='],
      ['^', '='], ['|', '='], ['=']]
  | orOp => [['|', '|']]
  | andOp => [['&', '&']]
  | eqOp => [['=', '='], ['!', '=']]
  | relOp => [['>', '='], ['<', '='], ['>'], ['<']]
  | addOp => [['+'], ['-']]
  | mulOp => [['*'], ['/'], ['%']]
  | incDecOp => [['+', '+'], ['-', '-']]
  | _ => []

/-- The characters that an operator rule does not want behind a symbol, beyond those that
would make the symbol longer. -/
def barred : Rule → Lexeme → List Char
  | addOp, _ => ['+', '-']
  | relOp, ['>'] => ['>']
  | relOp, ['<'] => ['<']
  | _, _ => []

theorem isFlat_of_symbols {r : Rule} (h : r.symbols ≠ []) : r.body.isFlat = true := by
  cases r <;> first | rfl | exact absurd rfl h

/-- No symbol of the rule begins with the character. -/
theorem scan_symbols_off {r : Rule} (h : r.symbols ≠ []) {c : Char} {cs : List Char}
    (off : ∀ t ∈ r.symbols, t.head? ≠ some c) : r.body.scan (c :: cs) = none := by
  cases r <;> try exact absurd rfl h
  all_goals
    simp [symbols] at off
    simp [body, oneOf, joined, Pattern.word, scan, off]

/-- An operator rule reads the symbol at its place, if the symbol is one of its own and no
barred character follows. -/
theorem scan_symbols {r : Rule} (h : r.symbols ≠ []) (cs : List Char) :
    r.body.scan cs = (symbol? cs).filter fun t =>
      r.symbols.contains t && (cs.drop t.length).head?.all fun d => !(r.barred t).contains d := by
  rcases cs with _ | ⟨c, cs⟩
  · cases r <;> simp [symbols, body, oneOf, joined, Pattern.word, scan, symbol?] at h ⊢
  by_cases on : ∃ t ∈ r.symbols, t.head? = some c
  · cases r <;> try exact absurd rfl h
    all_goals
      -- With its first character known, the symbol depends on the second one only.
      obtain ⟨t', mem, head⟩ := on
      simp only [symbols, List.mem_cons, List.not_mem_nil, or_false] at mem
      repeat' rcases mem with rfl | mem
      all_goals
        try subst mem
        cases head
        rcases cs with _ | ⟨d, cs⟩ <;>
        simp [body, oneOf, joined, Pattern.word, scan, symbols, symbol?, singles, pairs, barred,
          -List.head?_drop] <;>
        (repeat' split) <;> simp_all [Option.filter_some, -List.head?_drop] <;> grind only
  · have off : ∀ t ∈ r.symbols, t.head? ≠ some c := fun t mem head => on ⟨t, mem, head⟩
    rw [scan_symbols_off h off, eq_comm, Option.filter_eq_none_iff]
    intro t found
    have missing : t ∉ r.symbols := fun mem => off t mem (symbol?_head found)
    simp [missing]

end SyntaxTree.Rule
