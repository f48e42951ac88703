import SyntaxTree.Grammar.Match

/-!
# Matching without frontiers and budgets

The frontier only watches a match: it says how far an attempt came, and no
attempt looks at it. A larger budget changes neither the outcome nor the frontier
that was reached within a smaller one. So a match is settled by the pattern and the
position alone, up to the question whether the budget is enough.
-/

namespace SyntaxTree.Pattern

-- The equations of `run` are made here, once, and not by each of the lemmas below that opens it.
attribute [local simp] run

theorem run_fst_eq (budget : Nat) (visible : Bool) (pattern : Pattern) (p : Position)
    (f g : Frontier) : (run budget visible pattern p f).1 = (run budget visible pattern p g).1 := by
  induction budget generalizing visible pattern p f g with
  | zero => rfl
  | succ budget ih =>
    -- Two runs of one part, whatever their frontiers, have the same outcome.
    have same {v : Bool} {part : Pattern} {q : Position} {f g f' g' : Frontier} {o o' : Outcome}
        (hf : run budget v part q f = (o, f')) (hg : run budget v part q g = (o', g')) :
        o = o' := by
      have parts := ih v part q f g
      rwa [hf, hg] at parts
    cases pattern with
    | literal text =>
      simp only [run]
      split <;> rfl
    | char among =>
      simp only [run]
      split
      · rfl
      · split <;> rfl
    | call rule =>
      simp only [run]
      split
      · rcases hf : run budget (rule.kind == .plain) rule.body p f with ⟨o, f'⟩
        rcases hg : run budget (rule.kind == .plain) rule.body p g with ⟨o', g'⟩
        obtain rfl := same hf hg
        cases o <;> rfl
      · exact ih visible rule.body p f g
    | seq first second =>
      simp only [run]
      rcases hf : run budget visible first p f with ⟨o, f'⟩
      rcases hg : run budget visible first p g with ⟨o', g'⟩
      obtain rfl := same hf hg
      rcases o with ⟨text, next, phrases⟩ | _ | _
      · rcases hf' : run budget visible second next f' with ⟨o, _⟩
        rcases hg' : run budget visible second next g' with ⟨o', _⟩
        obtain rfl := same hf' hg'
        simp only [hf', hg']
        cases o <;> rfl
      · rfl
      · rfl
    | choice first second =>
      simp only [run]
      rcases hf : run budget visible first p f with ⟨o, f'⟩
      rcases hg : run budget visible first p g with ⟨o', g'⟩
      obtain rfl := same hf hg
      rcases o with _ | _ | _
      · rfl
      · exact ih visible second p f' g'
      · rfl
    | many item =>
      simp only [run]
      rcases hf : run budget visible item p f with ⟨o, f'⟩
      rcases hg : run budget visible item p g with ⟨o', g'⟩
      obtain rfl := same hf hg
      rcases o with ⟨text, next, phrases⟩ | _ | _
      · rcases hf' : run budget visible (many item) next f' with ⟨o, _⟩
        rcases hg' : run budget visible (many item) next g' with ⟨o', _⟩
        obtain rfl := same hf' hg'
        simp only [hf', hg']
        cases o <;> rfl
      · rfl
      · rfl
    | absent inner =>
      simp only [run]
      rcases hf : run budget false inner p f with ⟨o, f'⟩
      rcases hg : run budget false inner p g with ⟨o', g'⟩
      obtain rfl := same hf hg
      cases o <;> rfl

/-- A run that was settled stays the same with one more step to spare. -/
theorem run_succ {budget : Nat} {visible : Bool} {pattern : Pattern} {p : Position} {f g : Frontier}
    {o : Outcome} (h : run budget visible pattern p f = (o, g)) (settled : o ≠ .exhausted) :
    run (budget + 1) visible pattern p f = (o, g) := by
  induction budget generalizing visible pattern p f g o with
  | zero =>
    cases h
    exact absurd rfl settled
  | succ budget ih =>
    -- The runs of the parts that were settled are the same, and the rest is the same as well.
    cases pattern with
    | literal text => exact h
    | char among => exact h
    | call rule =>
      rw [run] at h ⊢
      split at h
      · rw [if_pos ‹_›]
        rcases inside : run budget (rule.kind == .plain) rule.body p f with ⟨_ | _ | _, f'⟩ <;>
          rw [inside] at h
        · rwa [ih inside (by simp)]
        · rwa [ih inside (by simp)]
        · cases h
          exact absurd rfl settled
      · rw [if_neg ‹_›]
        exact ih h settled
    | seq first second =>
      rw [run] at h ⊢
      rcases front : run budget visible first p f with ⟨⟨text, next, phrases⟩ | _ | _, f'⟩ <;>
        rw [front] at h
      · rw [ih front (by simp)]
        dsimp only at h ⊢
        rcases back : run budget visible second next f' with ⟨_ | _ | _, f''⟩ <;> rw [back] at h
        · rwa [ih back (by simp)]
        · rwa [ih back (by simp)]
        · cases h
          exact absurd rfl settled
      · rwa [ih front (by simp)]
      · cases h
        exact absurd rfl settled
    | choice first second =>
      rw [run] at h ⊢
      rcases front : run budget visible first p f with ⟨_ | _ | _, f'⟩ <;> rw [front] at h
      · rwa [ih front (by simp)]
      · rw [ih front (by simp)]
        exact ih h settled
      · cases h
        exact absurd rfl settled
    | many item =>
      rw [run] at h ⊢
      rcases front : run budget visible item p f with ⟨⟨text, next, phrases⟩ | _ | _, f'⟩ <;>
        rw [front] at h
      · rw [ih front (by simp)]
        dsimp only at h ⊢
        rcases back : run budget visible (many item) next f' with ⟨_ | _ | _, f''⟩ <;>
          rw [back] at h
        · rwa [ih back (by simp)]
        · rwa [ih back (by simp)]
        · cases h
          exact absurd rfl settled
      · rwa [ih front (by simp)]
      · cases h
        exact absurd rfl settled
    | absent inner =>
      rw [run] at h ⊢
      rcases inside : run budget false inner p f with ⟨_ | _ | _, f'⟩ <;> rw [inside] at h
      · rwa [ih inside (by simp)]
      · rwa [ih inside (by simp)]
      · cases h
        exact absurd rfl settled

theorem run_mono {budget larger : Nat} {visible : Bool} {pattern : Pattern} {p : Position}
    {f g : Frontier} {o : Outcome} (h : run budget visible pattern p f = (o, g))
    (settled : o ≠ .exhausted) (le : budget ≤ larger) :
    run larger visible pattern p f = (o, g) := by
  induction le with
  | refl => exact h
  | step _ ih => exact run_succ ih settled

/-- The outcome of a match, without the frontier. -/
def outcome (budget : Nat) (visible : Bool) (pattern : Pattern) (p : Position) : Outcome :=
  (run budget visible pattern p .start).1

theorem run_fst (budget : Nat) (visible : Bool) (pattern : Pattern) (p : Position)
    (f : Frontier) : (run budget visible pattern p f).1 = outcome budget visible pattern p :=
  run_fst_eq budget visible pattern p f .start

section Equations

variable (budget : Nat) (visible : Bool) (p : Position)

@[simp] theorem outcome_zero (pattern : Pattern) :
    outcome 0 visible pattern p = .exhausted := rfl

theorem outcome_literal (text : List Char) :
    outcome (budget + 1) visible (literal text) p =
      if text.isPrefixOf p.rest then .matched text (p.advance text) [] else .failed := by
  simp only [outcome, run]
  split <;> rfl

theorem outcome_char (among : CharClass) :
    outcome (budget + 1) visible (char among) p =
      match p.rest with
      | [] => .failed
      | c :: _ => if among.contains c then .matched [c] (p.advance [c]) [] else .failed := by
  simp only [outcome, run]
  cases p.rest with
  | nil => rfl
  | cons c rest =>
    dsimp only
    split <;> rfl

/-- A rule leaves no phrase of its own, or it does. -/
theorem hidden_or_named (rule : Rule) :
    (visible = false ∨ rule.kind = .silent) ∨ visible = true ∧ rule.kind ≠ .silent := by
  cases visible with
  | false => exact .inl (.inl rfl)
  | true => exact (Decidable.em (rule.kind = .silent)).imp .inr fun named => ⟨rfl, named⟩

/-- A rule that leaves a phrase: its inside is visible only if it is plain. -/
theorem outcome_call_visible {rule : Rule} (named : rule.kind ≠ .silent) :
    outcome (budget + 1) true (call rule) p =
      match outcome budget (rule.kind == .plain) rule.body p with
      | .matched text next phrases => .matched text next [⟨rule, p.offset, text, phrases⟩]
      | stopped => stopped := by
  simp only [outcome, run, named, ne_eq, not_false_eq_true, and_self, if_true]
  rcases run budget (rule.kind == .plain) rule.body p .start with ⟨_ | _ | _, _⟩ <;> rfl

theorem outcome_call_hidden {rule : Rule} (hidden : visible = false ∨ rule.kind = .silent) :
    outcome (budget + 1) visible (call rule) p = outcome budget visible rule.body p := by
  have unseen : ¬ (visible = true ∧ rule.kind ≠ .silent) := by
    rcases hidden with rfl | silent
    · simp
    · simp [silent]
  simp only [outcome, run, if_neg unseen]

theorem outcome_seq (first second : Pattern) :
    outcome (budget + 1) visible (seq first second) p =
      match outcome budget visible first p with
      | .matched text next phrases =>
        match outcome budget visible second next with
        | .matched text' next' phrases' =>
          .matched (text ++ text') next' (phrases ++ phrases')
        | stopped => stopped
      | stopped => stopped := by
  simp only [outcome, run]
  rcases run budget visible first p .start with ⟨⟨text, next, phrases⟩ | _ | _, f⟩
  · have back := run_fst budget visible second next f
    rcases h : run budget visible second next f with ⟨o, _⟩
    rw [h] at back
    simp only [h, outcome] at back ⊢
    rw [← back]
    cases o <;> rfl
  · rfl
  · rfl

theorem outcome_choice (first second : Pattern) :
    outcome (budget + 1) visible (choice first second) p =
      match outcome budget visible first p with
      | .failed => outcome budget visible second p
      | settled => settled := by
  simp only [outcome, run]
  rcases run budget visible first p .start with ⟨_ | _ | _, f⟩
  · rfl
  · exact run_fst budget visible second p f
  · rfl

theorem outcome_many (item : Pattern) :
    outcome (budget + 1) visible (many item) p =
      match outcome budget visible item p with
      | .matched text next phrases =>
        match outcome budget visible (many item) next with
        | .matched text' next' phrases' =>
          .matched (text ++ text') next' (phrases ++ phrases')
        | stopped => stopped
      | .failed => .matched [] p []
      | .exhausted => .exhausted := by
  simp only [outcome, run]
  rcases run budget visible item p .start with ⟨⟨text, next, phrases⟩ | _ | _, f⟩
  · have back := run_fst budget visible (many item) next f
    rcases h : run budget visible (many item) next f with ⟨o, _⟩
    rw [h] at back
    simp only [h, outcome] at back ⊢
    rw [← back]
    cases o <;> rfl
  · rfl
  · rfl

theorem outcome_absent (inner : Pattern) :
    outcome (budget + 1) visible (absent inner) p =
      match outcome budget false inner p with
      | .matched _ _ _ => .failed
      | .failed => .matched [] p []
      | .exhausted => .exhausted := by
  simp only [outcome, run]
  rcases run budget false inner p .start with ⟨_ | _ | _, f⟩ <;> rfl

end Equations

theorem outcome_mono {budget larger : Nat} {visible : Bool} {pattern : Pattern} {p : Position}
    {o : Outcome} (h : outcome budget visible pattern p = o) (settled : o ≠ .exhausted)
    (le : budget ≤ larger) : outcome larger visible pattern p = o := by
  have reached : run budget visible pattern p .start =
      (o, (run budget visible pattern p .start).2) := Prod.ext h rfl
  rw [outcome, run_mono reached settled le]

end SyntaxTree.Pattern
