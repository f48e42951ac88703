import SyntaxTree.Proofs.Derivation.Spacing

/-!
# Misses

A rule misses where it is entered in the course of a match and fails there.
`Misses` tells all misses of a match, whatever the frontier keeps of them: those in
branches that a choice gives up, those of the item that ends a repetition, and
those inside of what matched in the end. Silent rules have no misses of their own,
and nothing counts that happens inside a lexical rule.

A miss lies ahead in the same text. And as skipping comes before every rule, no gap
stands in front of a miss.
-/

namespace SyntaxTree.Pattern

open Rule Lexeme

/-- While the pattern is matched at `p`, the rule is entered at `q` and fails there. -/
inductive Misses : Pattern → Position → Rule → Position → Prop
  | here {r : Rule} {p : Position} (named : r.kind ≠ .silent) (failed : Fails true (call r) p) :
      Misses (call r) p r p
  | inside {r s : Rule} {p q : Position} (structured : r.kind ≠ .lexical)
      (miss : Misses r.body p s q) : Misses (call r) p s q
  | first {a b : Pattern} {r : Rule} {p q : Position} (miss : Misses a p r q) :
      Misses (seq a b) p r q
  | second {a b : Pattern} {r : Rule} {p m q : Position} {phrases : List Phrase}
      (front : Reads true a p phrases m) (miss : Misses b m r q) : Misses (seq a b) p r q
  | left {a b : Pattern} {r : Rule} {p q : Position} (miss : Misses a p r q) :
      Misses (choice a b) p r q
  | right {a b : Pattern} {r : Rule} {p q : Position} (failed : Fails true a p)
      (miss : Misses b p r q) : Misses (choice a b) p r q
  | item {a : Pattern} {r : Rule} {p q : Position} (miss : Misses a p r q) :
      Misses (many a) p r q
  | items {a : Pattern} {r : Rule} {p m q : Position} {phrases : List Phrase}
      (front : Reads true a p phrases m) (miss : Misses (many a) m r q) : Misses (many a) p r q
  | ahead {a : Pattern} {r : Rule} {p q : Position} (miss : Misses a p r q) :
      Misses (absent a) p r q

/-- No rule occurs in the pattern. -/
def isBare : Pattern → Bool
  | literal _ | char _ => true
  | call _ => false
  | seq a b | choice a b => isBare a && isBare b
  | many a | absent a => isBare a

/-- The pattern looks ahead at characters only. -/
def looksBare : Pattern → Bool
  | literal _ | char _ | call _ => true
  | seq a b | choice a b => looksBare a && looksBare b
  | many a => looksBare a
  | absent a => isBare a

/-- Outside of lexical rules, no rule is tried only to look ahead. -/
theorem looksBare_body {r : Rule} (structured : r.kind ≠ .lexical) : r.body.looksBare = true := by
  revert structured
  cases r <;> decide

section

variable {a b pattern : Pattern} {r s : Rule} {p m q : Position} {phrases : List Phrase}

theorem not_misses_of_isBare (bare : a.isBare = true) : ¬ Misses a p r q := by
  intro h
  induction h with
  | here _ _ | inside _ _ _ => cases bare
  | first _ ih | left _ ih =>
    rw [isBare, Bool.and_eq_true] at bare
    exact ih bare.1
  | second _ _ ih | right _ _ ih =>
    rw [isBare, Bool.and_eq_true] at bare
    exact ih bare.2
  | item _ ih | items _ _ ih | ahead _ ih => exact ih bare

theorem misses_call : Misses (call r) p s q ↔
    r.kind ≠ .lexical ∧ Misses r.body p s q ∨
      r.kind ≠ .silent ∧ Fails true (call r) p ∧ s = r ∧ q = p := by
  constructor
  · intro h
    cases h with
    | here named failed => exact .inr ⟨named, failed, rfl, rfl⟩
    | inside structured miss => exact .inl ⟨structured, miss⟩
  · rintro (⟨structured, miss⟩ | ⟨named, failed, rfl, rfl⟩)
    · exact .inside structured miss
    · exact .here named failed

theorem misses_seq_of_reads (front : Reads true a p phrases m) :
    Misses (seq a b) p r q ↔ Misses a p r q ∨ Misses b m r q := by
  constructor
  · intro h
    cases h with
    | first miss => exact .inl miss
    | second front' miss =>
      obtain ⟨-, rfl⟩ := front.unique front'
      exact .inr miss
  · rintro (miss | miss)
    · exact .first miss
    · exact .second front miss

theorem misses_seq_of_fails (failed : Fails true a p) :
    Misses (seq a b) p r q ↔ Misses a p r q := by
  constructor
  · intro h
    cases h with
    | first miss => exact miss
    | second front _ => exact absurd failed front.not_fails
  · exact .first

theorem misses_choice_of_reads (front : Reads true a p phrases m) :
    Misses (choice a b) p r q ↔ Misses a p r q := by
  constructor
  · intro h
    cases h with
    | left miss => exact miss
    | right failed _ => exact absurd failed front.not_fails
  · exact .left

theorem misses_choice_of_fails (failed : Fails true a p) :
    Misses (choice a b) p r q ↔ Misses a p r q ∨ Misses b p r q := by
  constructor
  · intro h
    cases h with
    | left miss => exact .inl miss
    | right _ miss => exact .inr miss
  · rintro (miss | miss)
    · exact .left miss
    · exact .right failed miss

theorem misses_many_of_reads (front : Reads true a p phrases m) :
    Misses (many a) p r q ↔ Misses a p r q ∨ Misses (many a) m r q := by
  constructor
  · intro h
    cases h with
    | item miss => exact .inl miss
    | items front' miss =>
      obtain ⟨-, rfl⟩ := front.unique front'
      exact .inr miss
  · rintro (miss | miss)
    · exact .item miss
    · exact .items front miss

theorem misses_many_of_fails (failed : Fails true a p) :
    Misses (many a) p r q ↔ Misses a p r q := by
  constructor
  · intro h
    cases h with
    | item miss => exact miss
    | items front _ => exact absurd failed front.not_fails
  · exact .item

/-- A miss lies ahead in the same text. -/
theorem Misses.text (h : Misses pattern p r q) : p.Reaches q := by
  induction h with
  | here _ _ => exact .refl _
  | inside _ _ ih | first _ ih | left _ ih | right _ _ ih | item _ ih | ahead _ ih => exact ih
  | second front _ ih | items front _ ih => exact front.text.trans ih

theorem not_misses_many (each : ∀ p, ¬ Misses a p r q) : ¬ Misses (many a) p r q := by
  intro h
  generalize same : many a = pattern at h
  induction h with
  | item miss _ =>
    cases same
    exact each _ miss
  | items _ _ ih => exact ih each same
  | _ => cases same

theorem not_misses_blank (silent : r.kind = .silent) (bare : r.body.isBare = true) :
    ¬ Misses (call r) p s q := by
  intro h
  rcases misses_call.mp h with ⟨-, miss⟩ | ⟨named, -⟩
  · exact not_misses_of_isBare bare miss
  · exact named silent

theorem not_misses_skipped : ¬ Misses skipped p r q := by
  have blanks (p : Position) : ¬ Misses (many (call .whitespace)) p r q :=
    not_misses_many fun _ => not_misses_blank rfl rfl
  intro h
  cases h with
  | first miss => exact blanks p miss
  | second _ miss =>
    refine not_misses_many (fun m miss => ?_) miss
    cases miss with
    | first miss => exact not_misses_blank rfl rfl miss
    | second _ miss => exact blanks _ miss

/-- In a pattern that skips before every rule, no gap stands in front of a miss. -/
theorem Misses.skip_rest {settled : Bool} (h : Misses pattern p r q)
    (spaced : pattern.isSpaced settled = true) (bare : pattern.looksBare = true)
    (still : settled = true → skip p.rest = p.rest) : skip q.rest = q.rest := by
  induction h generalizing settled with
  | here _ _ =>
    rw [isSpaced, Bool.and_eq_true] at spaced
    exact still spaced.1
  | @inside r s p q structured miss ih =>
    simp only [isSpaced, Bool.and_eq_true, Bool.or_eq_true, bne_iff_ne, ne_eq] at spaced
    have body : r.kind = .plain ∨ r.isGroup = true := by
      cases kind : r.kind with
      | plain => exact .inl rfl
      | lexical => exact absurd kind structured
      | silent => exact .inr (spaced.2.resolve_left (not_not_intro kind))
    exact ih (isSpaced_body body) (looksBare_body structured) fun _ => still spaced.1
  | @first a b r p q miss ih =>
    rw [looksBare, Bool.and_eq_true] at bare
    rw [isSpaced] at spaced
    split at spaced
    · rename_i gap
      subst gap
      exact absurd miss not_misses_skipped
    · rw [Bool.and_eq_true, Bool.and_eq_true] at spaced
      have front := spaced.1.1
      split at front
      · rename_i equals
        subst equals
        exact absurd miss (not_misses_of_isBare rfl)
      · exact ih front bare.1 still
  | @second a b r p m q phrases front miss ih =>
    rw [looksBare, Bool.and_eq_true] at bare
    rw [isSpaced] at spaced
    split at spaced
    · rename_i gap
      subst gap
      obtain ⟨-, -, next⟩ := front.skipped_inv
      exact ih spaced bare.2 fun _ => by rw [next, skip_skip]
    · rw [Bool.and_eq_true, Bool.and_eq_true] at spaced
      exact ih spaced.1.2 bare.2 (by simp)
  | left _ ih =>
    rw [looksBare, Bool.and_eq_true] at bare
    rw [isSpaced, Bool.and_eq_true] at spaced
    exact ih spaced.1 bare.1 still
  | right _ _ ih =>
    rw [looksBare, Bool.and_eq_true] at bare
    rw [isSpaced, Bool.and_eq_true] at spaced
    exact ih spaced.2 bare.2 still
  | item _ ih =>
    rw [isSpaced, Bool.and_eq_true] at spaced
    exact ih spaced.1 bare (by simp)
  | @items a _ _ _ _ _ _ _ ih =>
    -- Behind an item the repetition goes on where a gap may stand.
    have again : (many a).isSpaced false = true := by rwa [isSpaced] at spaced ⊢
    exact ih again bare (by simp)
  | ahead miss _ => exact absurd miss (not_misses_of_isBare bare)

end

end SyntaxTree.Pattern
