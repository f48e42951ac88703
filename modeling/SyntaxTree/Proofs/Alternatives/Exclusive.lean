import SyntaxTree.Proofs.Alternatives.Order

/-!
# Alternatives exclude each other

What holds of the matcher's own runs: at every place of every text at most one header
and at most one kind of statement matches. So the order in which the grammar lists
them is of no account, apart from the two conditionals, of which the shorter one
matches wherever the longer one does.
-/

namespace SyntaxTree.Rule

open Pattern Lexeme

variable {r : Rule} {p q : Position} {text : List Char} {phrases : List Phrase}

/-- The rule matches at the position. -/
def matches? (r : Rule) (p : Position) : Bool :=
  match (r.matchAt p).1 with
  | .matched _ _ _ => true
  | _ => false

theorem reads_of_matchAt (h : (r.matchAt p).1 = .matched text q phrases) :
    Reads true (call r) p phrases q :=
  ⟨p.budget, text, h⟩

theorem exists_of_matches (h : r.matches? p = true) :
    ∃ text q phrases, (r.matchAt p).1 = .matched text q phrases := by
  rw [matches?] at h
  split at h
  · exact ⟨_, _, _, ‹_›⟩
  · cases h

theorem reads_of_matches (h : r.matches? p = true) :
    ∃ phrases q, Reads true (call r) p phrases q := by
  obtain ⟨_, q, phrases, found⟩ := exists_of_matches h
  exact ⟨phrases, q, reads_of_matchAt found⟩

theorem matchAt_of_reads (h : Reads true (call r) p phrases q) :
    ∃ text, p.rest = text ++ q.rest ∧ (r.matchAt p).1 = .matched text q phrases := by
  cases found : (r.matchAt p).1 with
  | matched text q' phrases' =>
    obtain ⟨rfl, rfl⟩ := h.unique (reads_of_matchAt found)
    exact ⟨text, (outcome_text found).1, rfl⟩
  | failed => exact absurd ⟨p.budget, found⟩ h.not_fails
  | exhausted => exact absurd found (matchAt_ne_exhausted r p)

/-- At most one header and at most one kind of statement match at a place, and a
conditional without its alternative matches where the whole does. So another order of
headers and statements changes no match. Which clauses a header has is told by the
signs around them. -/
theorem alternatives_are_exclusive (p : Position) :
    (∀ r ∈ headers, ∀ s ∈ headers, r.matches? p = true → s.matches? p = true → r = s) ∧
      (∀ r ∈ statements, ∀ s ∈ statements, r.matches? p = true → s.matches? p = true →
        r.kindOfStatement = s.kindOfStatement) ∧
      (∀ text q phrases, (ifElseStmt.matchAt p).1 = .matched text q phrases →
        ∃ text' q' phrases', (ifStmt.matchAt p).1 = .matched text' q' phrases' ∧ text' <+: text) ∧
      (∀ headers' statements', headers'.Perm headers → statements'.Perm statements →
        [ifElseStmt, ifStmt].Sublist statements' → ∀ r n, p.budget ≤ n →
          outcomeWith (reordered headers' statements') n true (call r) p = (r.matchAt p).1) ∧
      ∀ r ∈ headers, ∀ text q phrases, (r.matchAt p).1 = .matched text q phrases →
        ∃ phrase clauses s a b, phrases = [phrase] ∧ ForClauses.ofPhrase phrase = .ok clauses ∧
          p.rest = '(' :: s ∧ behindSeparator? s = some a ∧ behindSeparator? a = some b ∧
          (clauses.init = none ↔ (skip s).head? = some ';') ∧
          (clauses.condition = none ↔ (skip a).head? = some ';') ∧
          (clauses.update = none ↔ (skip b).head? = some ')') := by
  refine ⟨?headers, ?statements, ?conditional, ?order, ?clauses⟩
  case headers =>
    intro r mem s mem' h h'
    obtain ⟨_, _, first⟩ := reads_of_matches h
    obtain ⟨_, _, second⟩ := reads_of_matches h'
    exact header_unique mem mem' first second
  case statements =>
    intro r mem s mem' h h'
    obtain ⟨_, _, first⟩ := reads_of_matches h
    obtain ⟨_, _, second⟩ := reads_of_matches h'
    exact statement_kind_unique mem mem' first second
  case conditional =>
    intro text q phrases h
    obtain ⟨phrases', m, reads, after, stands, -⟩ := ifStmt_of_ifElseStmt (reads_of_matchAt h)
    obtain ⟨text', stands', found⟩ := matchAt_of_reads reads
    refine ⟨text', m, phrases', found, after, ?_⟩
    have whole := (outcome_text h).1
    rw [stands', stands, ← List.append_assoc] at whole
    exact List.append_cancel_right whole
  case order =>
    intro headers' statements' perm perm' before r n enough
    have rank := rank_lt r
    have cost : (call r).cost = r.rank + 1 := rfl
    rw [Position.budget] at enough
    rw [outcomeWith_reordered perm perm' before rfl (by omega)]
    exact outcome_mono rfl (matchAt_ne_exhausted r p) enough
  case clauses =>
    intro r mem text q phrases h
    obtain ⟨phrase, clauses, s, a, b, single, read, -, layout⟩ :=
      header_layout mem (reads_of_matchAt h)
    exact ⟨phrase, clauses, s, a, b, single, read, layout⟩

/-- A header whose first clause holds a quoted semicolon, and a conditional with an alternative. -/
theorem alternatives_are_exclusive_quoted :
    (∃ phrase clauses, ForClauses.ofPhrase phrase = .ok clauses ∧ clauses.init ≠ none) ∧
      forInit.matches? (.atStart "(s=\";\";a<b;)".toList) = false ∧
      outcomeWith (reordered headers.reverse
          [expressionStmt, initializationStmt, declarationStmt, forStmt, ifElseStmt, ifStmt])
        896 true (call forHeader) (.atStart "(s=\";\";a<b;)".toList) =
          (forHeader.matchAt (.atStart "(s=\";\";a<b;)".toList)).1 ∧
      forStmt.matches? (.atStart "if(a)\x7b\x7delse\x7b\x7d".toList) = false ∧
      ∃ text q phrases, (ifStmt.matchAt (.atStart "if(a)\x7b\x7delse\x7b\x7d".toList)).1 =
        .matched text q phrases := by
  have header : forInitCond.matches? (.atStart "(s=\";\";a<b;)".toList) = true := by decide +kernel
  have conditional : ifElseStmt.matches? (.atStart "if(a)\x7b\x7delse\x7b\x7d".toList) = true := by
    decide +kernel
  obtain ⟨only, -, -, order, clauses⟩ := alternatives_are_exclusive (.atStart "(s=\";\";a<b;)".toList)
  obtain ⟨-, kind, shorter, -⟩ :=
    alternatives_are_exclusive (.atStart "if(a)\x7b\x7delse\x7b\x7d".toList)
  refine ⟨?_, ?_, ?_, ?_, ?_⟩
  · obtain ⟨_, _, _, found⟩ := exists_of_matches header
    obtain ⟨phrase, clauses, s, _, _, -, read, stands, -, -, init, -⟩ :=
      clauses forInitCond (by decide) _ _ _ found
    refine ⟨phrase, clauses, read, fun absent => ?_⟩
    obtain rfl : "s=\";\";a<b;)".toList = s := List.tail_eq_of_cons_eq stands
    have next : skip "s=\";\";a<b;)".toList = "s=\";\";a<b;)".toList :=
      skip_cons (by decide) (by decide)
    have head := init.mp absent
    rw [next] at head
    cases head
  · rw [Bool.eq_false_iff]
    intro other
    cases only forInitCond (by decide) forInit (by decide) header other
  · exact order _ _ headers.reverse_perm (by decide) (by decide) forHeader 896 (by decide)
  · rw [Bool.eq_false_iff]
    intro other
    cases kind ifElseStmt (by decide) forStmt (by decide) conditional other
  · obtain ⟨_, _, _, found⟩ := exists_of_matches conditional
    obtain ⟨text', q', phrases', found', -⟩ := shorter _ _ _ found
    exact ⟨text', q', phrases', found'⟩

end SyntaxTree.Rule
