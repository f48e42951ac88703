import SyntaxTree.Proofs.Matching.Entries

/-!
# Matching with the patterns of another grammar

`outcomeWith` takes the pattern of every rule from outside, for each position where
the rule is entered. It keeps no frontier, since a frontier also tells what was
tried in vain.

Two matches of a pattern agree if they agree on its parts and on the rules that it
calls. By induction on the budget a match then depends on no rule but those that are
entered in its course, so `Rule.Nested` leaves out none of them. And it may be traced
back to the rules: where each rule has the same outcome, every pattern has it.
-/

namespace SyntaxTree

namespace Pattern

/-- Match a pattern within a budget, where every rule has the pattern that is given for it at
the position. -/
def outcomeWith (body : Rule → Position → Pattern) : Nat → Bool → Pattern → Position → Outcome
  | 0, _, _, _ => .exhausted
  | _ + 1, _, literal text, p =>
    if text.isPrefixOf p.rest then .matched text (p.advance text) [] else .failed
  | _ + 1, _, char among, p =>
    match p.rest with
    | [] => .failed
    | c :: _ => if among.contains c then .matched [c] (p.advance [c]) [] else .failed
  | budget + 1, visible, call rule, p =>
    if visible ∧ rule.kind ≠ .silent then
      match outcomeWith body budget (rule.kind == .plain) (body rule p) p with
      | .matched text next phrases => .matched text next [⟨rule, p.offset, text, phrases⟩]
      | stopped => stopped
    else outcomeWith body budget visible (body rule p) p
  | budget + 1, visible, seq first second, p =>
    match outcomeWith body budget visible first p with
    | .matched text next phrases =>
      match outcomeWith body budget visible second next with
      | .matched text' next' phrases' => .matched (text ++ text') next' (phrases ++ phrases')
      | stopped => stopped
    | stopped => stopped
  | budget + 1, visible, choice first second, p =>
    match outcomeWith body budget visible first p with
    | .failed => outcomeWith body budget visible second p
    | settled => settled
  | budget + 1, visible, many item, p =>
    match outcomeWith body budget visible item p with
    | .matched text next phrases =>
      match outcomeWith body budget visible (many item) next with
      | .matched text' next' phrases' => .matched (text ++ text') next' (phrases ++ phrases')
      | stopped => stopped
    | .failed => .matched [] p []
    | .exhausted => .exhausted
  | budget + 1, _, absent inner, p =>
    match outcomeWith body budget false inner p with
    | .matched _ _ _ => .failed
    | .failed => .matched [] p []
    | .exhausted => .exhausted

variable {body : Rule → Position → Pattern} {n : Nat} {visible : Bool} {pattern : Pattern}
variable {p : Position}

/-- Matches agree on a pattern if they agree on its parts and on a rule that it calls. -/
theorem outcomeWith_succ
    (called : ∀ r v, pattern = call r → outcomeWith body n v (body r p) p = outcome n v r.body p)
    (parts : ∀ v part q, Tries pattern p part q →
      outcomeWith body n v part q = outcome n v part q) :
    outcomeWith body (n + 1) visible pattern p = outcome (n + 1) visible pattern p := by
  cases pattern with
  | literal text => exact (outcome_literal _ _ _ text).symm
  | char among => exact (outcome_char _ _ _ among).symm
  | call r =>
    have inside (v : Bool) : outcomeWith body n v (body r p) p = outcome n v r.body p :=
      called r v rfl
    rcases hidden_or_named visible r with hidden | ⟨rfl, named⟩
    · have unseen : ¬ (visible = true ∧ r.kind ≠ .silent) := by
        rintro ⟨rfl, named⟩
        exact hidden.elim Bool.noConfusion named
      rw [outcomeWith, if_neg unseen, inside, outcome_call_hidden _ _ _ hidden]
    · rw [outcome_call_visible _ _ named, ← inside]
      exact if_pos ⟨rfl, named⟩
  | seq a b =>
    rw [outcomeWith, outcome_seq, parts visible a p .first]
    cases front : outcome n visible a p with
    | matched text m phrases =>
      have second := parts visible b m (.second ⟨n, text, front⟩)
      dsimp only
      exact second ▸ rfl
    | failed => rfl
    | exhausted => rfl
  | choice a b =>
    rw [outcomeWith, outcome_choice, parts visible a p .left]
    cases front : outcome n visible a p with
    | matched text m phrases => rfl
    | failed => exact parts visible b p (.right ⟨n, front⟩)
    | exhausted => rfl
  | many a =>
    rw [outcomeWith, outcome_many, parts visible a p .item]
    cases front : outcome n visible a p with
    | matched text m phrases =>
      have others := parts visible (many a) m (.items ⟨n, text, front⟩)
      dsimp only
      exact others ▸ rfl
    | failed => rfl
    | exhausted => rfl
  | absent a =>
    rw [outcome_absent, ← parts false a p .ahead]
    rfl

/-- A match depends on the rules that are entered in its course, and on no others. -/
theorem outcomeWith_of_entered
    (same : ∀ r q, Enters pattern p r q → ∀ k s m, Rule.Nested k r q s m → body s m = s.body) :
    outcomeWith body n visible pattern p = outcome n visible pattern p := by
  induction n generalizing visible pattern p with
  | zero => rfl
  | succ n ih =>
    refine outcomeWith_succ ?_ fun v part q tried => ?_
    · rintro r v rfl
      rw [same r p .here 0 r p .here]
      exact ih fun s q entry k t m nested => same r p .here (k + 1) t m (.deeper entry nested)
    · exact ih fun r m entry => same r m (.inside tried entry)

/-- Where each rule has the same outcome, as long as the patterns within a smaller budget have
it, every pattern has the same outcome. -/
theorem outcomeWith_eq
    (same : ∀ n visible r p, 64 * p.rest.length + r.rank ≤ n →
      (∀ pattern, pattern.isProgressive = true → 64 * p.rest.length + pattern.cost ≤ n →
        outcomeWith body n visible pattern p = outcome n visible pattern p) →
      outcomeWith body n visible (body r p) p = outcome n visible r.body p)
    (progressive : pattern.isProgressive = true)
    (enough : 64 * p.rest.length + pattern.cost ≤ n) :
    outcomeWith body n visible pattern p = outcome n visible pattern p := by
  induction n generalizing visible pattern p with
  | zero => rfl
  | succ n ih =>
    refine outcomeWith_succ ?_ fun v part q tried => ?_
    · rintro r v rfl
      rw [cost] at enough
      exact same n v r p (by omega) fun pattern progressive enough => ih progressive enough
    · have lighter := tried.weight_lt progressive
      exact ih (tried.isProgressive progressive) (by omega)

end Pattern

open Pattern in
/-- While a rule is matched, no rules matter but those that are entered, each where it is
entered. -/
theorem Rule.outcomeWith_of_nested {body : Rule → Position → Pattern} {r : Rule} {p : Position}
    (same : ∀ k s q, Nested k r p s q → body s q = s.body) (n : Nat) (visible : Bool) :
    outcomeWith body n visible (call r) p = outcome n visible (call r) p := by
  refine outcomeWith_of_entered fun s q entry => ?_
  cases entry with
  | here => exact same
  | inside tried _ => cases tried

end SyntaxTree
