import SyntaxTree.Proofs.Alternatives.Header
import SyntaxTree.Proofs.Alternatives.Statement
import SyntaxTree.Proofs.Matching.Grammars

/-!
# The order of alternatives

An ordered choice takes its first alternative that matches, so its order matters only
for alternatives that match at the same place. Of the eight headers no two do, and of
the statements only the two conditionals.

A grammar with its alternatives in another order is matched by `outcomeWith`, which
takes the pattern of every rule from outside. It finds the same everywhere, as long as
the conditional with an alternative comes before the one without. Only the frontier
depends on the order, and `outcomeWith` keeps none.
-/

namespace SyntaxTree

open Rule

namespace Outcome

/-- An outcome without its phrases. -/
def bare : Outcome → Outcome
  | matched text next _ => matched text next []
  | failed => failed
  | exhausted => exhausted

end Outcome

namespace Pattern

variable {n : Nat} {visible : Bool} {a b pattern : Pattern} {p q : Position}
variable {phrases : List Phrase} {r s : Rule} {rules rules' : List Rule}

/-! ## Hidden matches -/

/-- Whether rules leave phrases makes no difference to what is matched. -/
theorem outcome_bare (n : Nat) (visible : Bool) (pattern : Pattern) (p : Position) :
    (outcome n visible pattern p).bare = outcome n false pattern p := by
  induction n generalizing visible pattern p with
  | zero => rfl
  | succ n ih =>
    cases pattern with
    | literal text =>
      rw [outcome_literal, outcome_literal]
      split <;> rfl
    | char among =>
      rw [outcome_char, outcome_char]
      split
      · rfl
      · split <;> rfl
    | call r =>
      rw [outcome_call_hidden n false p (.inl rfl)]
      rcases hidden_or_named visible r with hidden | ⟨rfl, named⟩
      · rw [outcome_call_hidden _ _ _ hidden]
        exact ih visible r.body p
      · rw [outcome_call_visible _ _ named, ← ih (r.kind == .plain) r.body p]
        cases outcome n (r.kind == .plain) r.body p <;> rfl
    | seq a b =>
      rw [outcome_seq, outcome_seq, ← ih visible a p]
      cases outcome n visible a p with
      | matched text m phrases =>
        dsimp only [Outcome.bare]
        rw [← ih visible b m]
        cases outcome n visible b m <;> rfl
      | failed => rfl
      | exhausted => rfl
    | choice a b =>
      rw [outcome_choice, outcome_choice, ← ih visible a p]
      cases outcome n visible a p with
      | matched text m phrases => rfl
      | failed => exact ih visible b p
      | exhausted => rfl
    | many a =>
      rw [outcome_many, outcome_many, ← ih visible a p]
      cases outcome n visible a p with
      | matched text m phrases =>
        dsimp only [Outcome.bare]
        rw [← ih visible (many a) m]
        cases outcome n visible (many a) m <;> rfl
      | failed => rfl
      | exhausted => rfl
    | absent a =>
      rw [outcome_absent, outcome_absent]
      cases outcome n false a p <;> rfl

theorem Reads.shown (h : Reads visible pattern p phrases q) :
    ∃ phrases', Reads true pattern p phrases' q := by
  obtain ⟨n, text, reached⟩ := h
  have same := (outcome_bare n true pattern p).trans (outcome_bare n visible pattern p).symm
  rw [reached] at same
  cases found : outcome n true pattern p with
  | matched text' q' phrases' =>
    rw [found] at same
    cases same
    exact ⟨phrases', n, text, found⟩
  | failed =>
    rw [found] at same
    cases same
  | exhausted =>
    rw [found] at same
    cases same

/-! ## Ordered choices -/

/-- A choice among no alternatives fails. -/
theorem fails_oneOf_nil : Fails visible (oneOf []) p := by
  have reads : Reads false (literal []) p [] (p.advance []) := reads_literal rfl
  exact fails_absent reads

/-- What a choice reads is read by its first alternative that does not fail. -/
theorem Reads.oneOf_inv (h : Reads visible (oneOf (rules.map call)) p phrases q) :
    ∃ front r back, rules = front ++ r :: back ∧ (∀ s ∈ front, Fails visible (call s) p) ∧
      Reads visible (call r) p phrases q := by
  induction rules with
  | nil => exact absurd fails_oneOf_nil h.not_fails
  | cons r rules ih =>
    cases rules with
    | nil => exact ⟨[], r, [], rfl, fun s mem => absurd mem List.not_mem_nil, h⟩
    | cons next rules =>
      rcases h.choice_inv with first | ⟨failed, later⟩
      · exact ⟨[], r, _, rfl, fun s mem => absurd mem List.not_mem_nil, first⟩
      · obtain ⟨front, r', back, split, fails, reads⟩ := ih later
        refine ⟨r :: front, r', back, by rw [split]; rfl, ?_, reads⟩
        exact List.forall_mem_cons.mpr ⟨failed, fails⟩

theorem reads_oneOf {front back : List Rule} (fails : ∀ s ∈ front, Fails visible (call s) p)
    (h : Reads visible (call r) p phrases q) :
    Reads visible (oneOf ((front ++ r :: back).map call)) p phrases q := by
  induction front with
  | nil =>
    cases back with
    | nil => exact h
    | cons next back => exact h.choice_left
  | cons s front ih =>
    obtain ⟨failed, fails⟩ := List.forall_mem_cons.mp fails
    obtain ⟨next, rest, split⟩ := List.exists_cons_of_ne_nil
      (List.append_ne_nil_of_right_ne_nil front (List.cons_ne_nil r back))
    have later := ih fails
    rw [split] at later
    rw [List.cons_append, split]
    exact later.choice_right failed

theorem fails_oneOf_iff :
    Fails visible (oneOf (rules.map call)) p ↔ ∀ r ∈ rules, Fails visible (call r) p := by
  induction rules with
  | nil => exact ⟨fun _ r mem => absurd mem List.not_mem_nil, fun _ => fails_oneOf_nil⟩
  | cons r rules ih =>
    rw [List.forall_mem_cons, ← ih]
    cases rules with
    | nil => exact ⟨fun failed => ⟨failed, fails_oneOf_nil⟩, And.left⟩
    | cons next rules => exact ⟨Fails.choice_inv, fun both => fails_choice both.1 both.2⟩

/-- Two settled patterns that read the same have the same outcome. -/
theorem outcome_congr (settled : outcome n visible a p ≠ .exhausted)
    (settled' : outcome n visible b p ≠ .exhausted)
    (reads : ∀ phrases q, Reads visible a p phrases q → Reads visible b p phrases q)
    (fails : Fails visible a p → Fails visible b p) :
    outcome n visible b p = outcome n visible a p := by
  cases found : outcome n visible a p with
  | matched text q phrases =>
    have other := reads phrases q ⟨n, text, found⟩
    cases found' : outcome n visible b p with
    | matched text' q' phrases' =>
      have same : Reads visible b p phrases' q' := ⟨n, text', found'⟩
      obtain ⟨rfl, rfl⟩ := same.unique other
      have stands := (outcome_text found).1
      rw [(outcome_text found').1] at stands
      rw [List.append_cancel_right stands]
    | failed => exact absurd ⟨n, found'⟩ other.not_fails
    | exhausted => exact absurd found' settled'
  | failed =>
    have other := fails ⟨n, found⟩
    cases found' : outcome n visible b p with
    | matched text' q' phrases' =>
      have same : Reads visible b p phrases' q' := ⟨n, text', found'⟩
      exact absurd other same.not_fails
    | failed => rfl
    | exhausted => exact absurd found' settled'
  | exhausted => exact absurd found settled

/-- In a list without repetitions no pair stands in both orders. -/
theorem not_pair_sublist {front back : List Rule} (nodup : (front ++ r :: back).Nodup)
    (mem : s ∈ front) : ¬ [r, s].Sublist (front ++ r :: back) := by
  intro pair
  rw [List.nodup_append] at nodup
  obtain ⟨-, -, apart⟩ := nodup
  obtain ⟨before, after, split, inFront, inBack⟩ := List.sublist_append_iff.mp pair
  cases before with
  | nil =>
    obtain rfl : [r, s] = after := split
    exact apart s mem s (inBack.subset (by simp)) rfl
  | cons first others =>
    obtain ⟨rfl, -⟩ := List.cons.inj split
    exact apart r (inFront.subset List.mem_cons_self) r List.mem_cons_self rfl

/-- Alternatives may change their order, as long as no two change it that match at the same
place. -/
theorem Reads.reordered (perm : rules'.Perm rules) (nodup : rules.Nodup)
    (kept : ∀ r s, [r, s].Sublist rules → (∃ phrases q, Reads visible (call r) p phrases q) →
      (∃ phrases q, Reads visible (call s) p phrases q) → [r, s].Sublist rules')
    (h : Reads visible (oneOf (rules.map call)) p phrases q) :
    Reads visible (oneOf (rules'.map call)) p phrases q := by
  obtain ⟨front, r, back, rfl, fails, reads⟩ := h.oneOf_inv
  have mem : r ∈ rules' := perm.mem_iff.mpr (by simp)
  obtain ⟨front', back', rfl⟩ := List.append_of_mem mem
  have nodup' := perm.nodup_iff.mpr nodup
  refine reads_oneOf (fun s earlier => ?_) reads
  have among : s ∈ front ++ r :: back := perm.mem_iff.mp (List.mem_append_left _ earlier)
  refine (reads_or_fails_of_progressive rfl p).resolve_left fun other => ?_
  -- Another alternative that reads comes later in the old order, and so in the new one.
  have later : s ∈ r :: back := by
    refine (List.mem_append.mp among).resolve_left fun inFront => ?_
    obtain ⟨_, _, reads'⟩ := other
    exact reads'.not_fails (fails s inFront)
  have different : s ≠ r := by
    rintro rfl
    rw [List.nodup_append] at nodup'
    exact nodup'.2.2 s earlier s List.mem_cons_self rfl
  have behind : s ∈ back := (List.mem_cons.mp later).resolve_left different
  have pair : [r, s].Sublist (front ++ r :: back) := by
    refine List.Sublist.trans ?_ (List.sublist_append_right front (r :: back))
    exact (List.singleton_sublist.mpr behind).cons_cons r
  exact not_pair_sublist nodup' earlier (kept r s pair ⟨_, _, reads⟩ other)

/-! ## Choices within a budget -/

theorem isProgressive_oneOf (rules : List Rule) :
    (oneOf (rules.map call)).isProgressive = true := by
  induction rules with
  | nil => rfl
  | cons r rules ih =>
    cases rules with
    | nil => rfl
    | cons next rules => exact ih

theorem cost_oneOf_le {bound : Nat} (small : 2 ≤ bound) (ranks : ∀ r ∈ rules, r.rank ≤ bound) :
    (oneOf (rules.map call)).cost ≤ bound + rules.length := by
  induction rules with
  | nil => exact small
  | cons r rules ih =>
    obtain ⟨first, others⟩ := List.forall_mem_cons.mp ranks
    cases rules with
    | nil =>
      show r.rank + 1 ≤ bound + 1
      omega
    | cons next rules =>
      have behind := ih others
      show max (r.rank + 1) (oneOf ((next :: rules).map call)).cost + 1 ≤ _
      simp only [List.length_cons] at behind ⊢
      omega

/-- Within a budget for all of them, alternatives in another order have the same outcome. -/
theorem outcome_oneOf_reordered {bound : Nat} (small : 2 ≤ bound)
    (ranks : ∀ r ∈ rules, r.rank ≤ bound) (perm : rules'.Perm rules) (nodup : rules.Nodup)
    (enough : 64 * p.rest.length + (bound + rules.length) ≤ n)
    (kept : ∀ r s, [r, s].Sublist rules → (∃ phrases q, Reads visible (call r) p phrases q) →
      (∃ phrases q, Reads visible (call s) p phrases q) → [r, s].Sublist rules') :
    outcome n visible (oneOf (rules'.map call)) p = outcome n visible (oneOf (rules.map call)) p := by
  have choice {list : List Rule} (perm : list.Perm rules) :
      outcome n visible (oneOf (list.map call)) p ≠ .exhausted := by
    have cost := cost_oneOf_le small fun r mem => ranks r (perm.mem_iff.mp mem)
    rw [perm.length_eq] at cost
    exact outcome_ne_exhausted (isProgressive_oneOf list) (by omega)
  refine outcome_congr (choice (.refl rules)) (choice perm) ?_ fun failed => ?_
  · exact fun _ _ reads => reads.reordered perm nodup kept
  · rw [fails_oneOf_iff] at failed ⊢
    exact fun r mem => failed r (perm.mem_iff.mp mem)

end Pattern

namespace Rule

open Pattern

variable {n : Nat} {visible : Bool} {pattern : Pattern} {p : Position}

/-- The grammar with its headers and its kinds of statements in the given orders, at every
position. -/
def reordered (headers' statements' : List Rule) : Rule → Position → Pattern
  | forHeader, _ => oneOf (headers'.map call)
  | statement, _ => oneOf (statements'.map call)
  | r, _ => r.body

example (r : Rule) (p : Position) : reordered headers statements r p = r.body := by
  cases r <;> rfl

theorem reordered_other {headers' statements' : List Rule} {r : Rule} (header : r ≠ forHeader)
    (stmt : r ≠ statement) (p : Position) : reordered headers' statements' r p = r.body := by
  cases r <;> first | rfl | contradiction

theorem headers_kept {headers' : List Rule} (r s : Rule) (pair : [r, s].Sublist headers)
    (reads : ∃ phrases q, Reads visible (call r) p phrases q)
    (reads' : ∃ phrases q, Reads visible (call s) p phrases q) : [r, s].Sublist headers' := by
  obtain ⟨_, _, first⟩ := reads
  obtain ⟨_, _, second⟩ := reads'
  obtain ⟨_, shown⟩ := first.shown
  obtain ⟨_, shown'⟩ := second.shown
  have same : r = s :=
    header_unique (pair.subset (by simp)) (pair.subset (by simp)) shown shown'
  subst same
  have once : headers.Nodup := by decide
  exact absurd (pair.nodup once) (by simp)

theorem statements_kept {statements' : List Rule}
    (before : [ifElseStmt, ifStmt].Sublist statements') (r s : Rule)
    (pair : [r, s].Sublist statements)
    (reads : ∃ phrases q, Reads visible (call r) p phrases q)
    (reads' : ∃ phrases q, Reads visible (call s) p phrases q) : [r, s].Sublist statements' := by
  obtain ⟨_, _, first⟩ := reads
  obtain ⟨_, _, second⟩ := reads'
  obtain ⟨_, shown⟩ := first.shown
  obtain ⟨_, shown'⟩ := second.shown
  have mem : r ∈ statements := pair.subset (by simp)
  have mem' : s ∈ statements := pair.subset (by simp)
  have conditional : ∀ r ∈ statements, ∀ s ∈ statements, [r, s].Sublist statements →
      r.kindOfStatement = s.kindOfStatement → r = ifElseStmt ∧ s = ifStmt := by decide
  obtain ⟨rfl, rfl⟩ := conditional r mem s mem' pair (statement_kind_unique mem mem' shown shown')
  exact before

/-- The order of headers and statements changes no outcome of any pattern. -/
theorem outcomeWith_reordered {headers' statements' : List Rule} (perm : headers'.Perm headers)
    (perm' : statements'.Perm statements) (before : [ifElseStmt, ifStmt].Sublist statements')
    (progressive : pattern.isProgressive = true)
    (enough : 64 * p.rest.length + pattern.cost ≤ n) :
    outcomeWith (reordered headers' statements') n visible pattern p =
      outcome n visible pattern p := by
  refine outcomeWith_eq (fun n visible r p enough ih => ?_) progressive enough
  -- One choice in another order, where the alternatives are matched with the new grammar.
  have choice {rules rules' : List Rule} {bound : Nat} (small : 2 ≤ bound)
      (ranks : ∀ r ∈ rules, r.rank ≤ bound) (perm : rules'.Perm rules) (nodup : rules.Nodup)
      (fits : bound + rules.length ≤ r.rank)
      (kept : ∀ r s, [r, s].Sublist rules → (∃ phrases q, Reads visible (call r) p phrases q) →
        (∃ phrases q, Reads visible (call s) p phrases q) → [r, s].Sublist rules') :
      outcomeWith (reordered headers' statements') n visible (oneOf (rules'.map call)) p =
        outcome n visible (oneOf (rules.map call)) p := by
    have cost := cost_oneOf_le small fun r mem => ranks r (perm.mem_iff.mp mem)
    rw [perm.length_eq] at cost
    rw [ih _ (isProgressive_oneOf rules') (by omega)]
    exact outcome_oneOf_reordered small ranks perm nodup (by omega) kept
  by_cases header : r = forHeader
  · subst header
    rw [forHeader_body]
    have small : 2 ≤ 5 := by decide
    exact choice small (by decide) perm (by decide) (by decide) headers_kept
  by_cases stmt : r = statement
  · subst stmt
    rw [statement_body]
    have small : 2 ≤ 30 := by decide
    exact choice small (by decide) perm' (by decide) (by decide) (statements_kept before)
  · have cost := cost_body r
    rw [reordered_other header stmt p]
    exact ih r.body (isProgressive_body r) (by omega)

end Rule

end SyntaxTree
