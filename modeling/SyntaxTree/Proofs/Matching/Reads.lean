import SyntaxTree.Proofs.Matching.Outcome

/-!
# Matches taken apart and put together

`Reads` says that a pattern matches from one position to another and leaves
some phrases, and `Fails` that it does not match. `Success` lists the ways to
match, so whatever holds of a match is proved by cases on it. For every kind of
pattern there is a lemma that takes a match apart, and lemmas that put matches
together.

The lemmas that take apart keep the budget in sight, as `ReadsWithin`: all parts
of a match have the budget of the whole, and the inside of a rule has less. So
what holds of everything that a rule matches is proved by induction on it.
-/

namespace SyntaxTree

namespace Position

@[simp] theorem advance_nil (p : Position) : p.advance [] = p := by
  simp [advance]

theorem advance_append (p : Position) (before after : List Char) :
    p.advance (before ++ after) = (p.advance before).advance after := by
  simp [advance, Nat.add_assoc]

theorem rest_advance {p : Position} {text rest : List Char} (h : p.rest = text ++ rest) :
    (p.advance text).rest = rest := by
  simp [advance, h]

/-- The second position lies ahead of the first in the same text. -/
def Reaches (p q : Position) : Prop := ∃ text, p.rest = text ++ q.rest ∧ q = p.advance text

theorem Reaches.refl (p : Position) : p.Reaches p := ⟨[], rfl, p.advance_nil.symm⟩

theorem Reaches.trans {p m q : Position} (h : p.Reaches m) (h' : m.Reaches q) : p.Reaches q := by
  obtain ⟨before, stands, rfl⟩ := h
  obtain ⟨after, stands', stop⟩ := h'
  refine ⟨before ++ after, ?_, ?_⟩
  · rw [stands, stands', List.append_assoc]
  · rw [stop, advance_append]

end Position

namespace Pattern

variable {budget larger : Nat} {visible : Bool} {p q : Position} {phrases : List Phrase}

/-- The ways in which a pattern matches within a budget of `n + 1`, each with what the parts of
the pattern have done within `n`. -/
inductive Success (n : Nat) :
    Bool → Pattern → Position → List Char → Position → List Phrase → Prop
  | literal {visible : Bool} {p : Position} {text rest : List Char} (stands : p.rest = text ++ rest) :
      Success n visible (literal text) p text (p.advance text) []
  | char {visible : Bool} {p : Position} {among : CharClass} {c : Char} {rest : List Char}
      (stands : p.rest = c :: rest) (inside : among.contains c = true) :
      Success n visible (char among) p [c] (p.advance [c]) []
  | shown {p q : Position} {rule : Rule} {text : List Char} {phrases : List Phrase}
      (named : rule.kind ≠ .silent)
      (body : outcome n (rule.kind == .plain) rule.body p = .matched text q phrases) :
      Success n true (call rule) p text q [⟨rule, p.offset, text, phrases⟩]
  | hidden {visible : Bool} {p q : Position} {rule : Rule} {text : List Char}
      {phrases : List Phrase} (silent : visible = false ∨ rule.kind = .silent)
      (body : outcome n visible rule.body p = .matched text q phrases) :
      Success n visible (call rule) p text q phrases
  | seq {visible : Bool} {a b : Pattern} {p m q : Position} {text text' : List Char}
      {phrases phrases' : List Phrase} (front : outcome n visible a p = .matched text m phrases)
      (back : outcome n visible b m = .matched text' q phrases') :
      Success n visible (seq a b) p (text ++ text') q (phrases ++ phrases')
  | left {visible : Bool} {a b : Pattern} {p q : Position} {text : List Char}
      {phrases : List Phrase} (first : outcome n visible a p = .matched text q phrases) :
      Success n visible (choice a b) p text q phrases
  | right {visible : Bool} {a b : Pattern} {p q : Position} {text : List Char}
      {phrases : List Phrase} (failed : outcome n visible a p = .failed)
      (second : outcome n visible b p = .matched text q phrases) :
      Success n visible (choice a b) p text q phrases
  | stop {visible : Bool} {a : Pattern} {p : Position} (failed : outcome n visible a p = .failed) :
      Success n visible (many a) p [] p []
  | more {visible : Bool} {a : Pattern} {p m q : Position} {text text' : List Char}
      {phrases phrases' : List Phrase} (front : outcome n visible a p = .matched text m phrases)
      (back : outcome n visible (many a) m = .matched text' q phrases') :
      Success n visible (many a) p (text ++ text') q (phrases ++ phrases')
  | absent {visible : Bool} {a : Pattern} {p : Position} (failed : outcome n false a p = .failed) :
      Success n visible (absent a) p [] p []

/-- A match takes a step of the budget and is one of the ways to match. -/
theorem exists_success {pattern : Pattern} {text : List Char}
    (h : outcome budget visible pattern p = .matched text q phrases) :
    ∃ n, budget = n + 1 ∧ Success n visible pattern p text q phrases := by
  cases budget with
  | zero => simp at h
  | succ n =>
    refine ⟨n, rfl, ?_⟩
    cases pattern with
    | literal wanted =>
      rw [outcome_literal] at h
      split at h <;> cases h
      obtain ⟨rest, stands⟩ := List.isPrefixOf_iff_prefix.mp ‹_›
      exact .literal stands.symm
    | char among =>
      rw [outcome_char] at h
      rcases stands : p.rest with _ | ⟨c, rest⟩ <;> rw [stands] at h
      · cases h
      · dsimp only at h
        split at h <;> cases h
        exact .char stands ‹_›
    | call rule =>
      rcases hidden_or_named visible rule with hidden | ⟨rfl, named⟩
      · rw [outcome_call_hidden _ _ _ hidden] at h
        exact .hidden hidden h
      · rw [outcome_call_visible _ _ named] at h
        rcases inside : outcome n (rule.kind == .plain) rule.body p with _ | _ | _ <;>
          rw [inside] at h <;> cases h
        exact .shown named inside
    | seq a b =>
      rw [outcome_seq] at h
      rcases front : outcome n visible a p with ⟨text, m, phrases⟩ | _ | _ <;> rw [front] at h
      · dsimp only at h
        rcases back : outcome n visible b m with _ | _ | _ <;> rw [back] at h <;> cases h
        exact .seq front back
      · cases h
      · cases h
    | choice a b =>
      rw [outcome_choice] at h
      rcases front : outcome n visible a p with _ | _ | _ <;> rw [front] at h
      · cases h
        exact .left front
      · exact .right front h
      · cases h
    | many a =>
      rw [outcome_many] at h
      rcases front : outcome n visible a p with ⟨text, m, phrases⟩ | _ | _ <;> rw [front] at h
      · dsimp only at h
        rcases back : outcome n visible (many a) m with _ | _ | _ <;> rw [back] at h <;> cases h
        exact .more front back
      · cases h
        exact .stop front
      · cases h
    | absent a =>
      rw [outcome_absent] at h
      rcases inside : outcome n false a p with _ | _ | _ <;> rw [inside] at h <;> cases h
      exact .absent inside

/-- What a match reads stands between its two positions. -/
theorem outcome_text {pattern : Pattern} {text : List Char}
    (h : outcome budget visible pattern p = .matched text q phrases) :
    p.rest = text ++ q.rest ∧ q = p.advance text := by
  induction budget generalizing visible pattern p q phrases text with
  | zero => simp at h
  | succ budget ih =>
    obtain ⟨n, same, success⟩ := exists_success h
    obtain rfl := Nat.succ.inj same
    cases success with
    | literal stands => exact ⟨by rw [Position.rest_advance stands, stands], rfl⟩
    | @char _ p _ c rest stands _ =>
      have behind : (p.advance [c]).rest = rest := Position.rest_advance stands
      exact ⟨by rw [behind, stands]; rfl, rfl⟩
    | shown _ body | hidden _ body => exact ih body
    | seq front back | more front back =>
      obtain ⟨before, rfl⟩ := ih front
      obtain ⟨after, rfl⟩ := ih back
      exact ⟨by rw [before, after, List.append_assoc], (p.advance_append _ _).symm⟩
    | left first => exact ih first
    | right _ second => exact ih second
    | stop _ | absent _ => simp

/-- Within the budget, the pattern matches from `p` to `q` and leaves the phrases. -/
def ReadsWithin (budget : Nat) (visible : Bool) (pattern : Pattern) (p : Position)
    (phrases : List Phrase) (q : Position) : Prop :=
  ∃ text, outcome budget visible pattern p = .matched text q phrases

/-- Within the budget it turns out that the pattern does not match at `p`. -/
def FailsWithin (budget : Nat) (visible : Bool) (pattern : Pattern) (p : Position) : Prop :=
  outcome budget visible pattern p = .failed

def Reads (visible : Bool) (pattern : Pattern) (p : Position) (phrases : List Phrase)
    (q : Position) : Prop :=
  ∃ budget, ReadsWithin budget visible pattern p phrases q

def Fails (visible : Bool) (pattern : Pattern) (p : Position) : Prop :=
  ∃ budget, FailsWithin budget visible pattern p

namespace ReadsWithin

variable {a b : Pattern}

theorem mono (h : ReadsWithin budget visible a p phrases q) (le : budget ≤ larger) :
    ReadsWithin larger visible a p phrases q := by
  obtain ⟨text, reached⟩ := h
  exact ⟨text, outcome_mono reached (by simp) le⟩

theorem reads (h : ReadsWithin budget visible a p phrases q) : Reads visible a p phrases q :=
  ⟨budget, h⟩

/-- A match that can be taken apart. -/
theorem exists_success (h : ReadsWithin budget visible a p phrases q) :
    ∃ less text, budget = less + 1 ∧ Success less visible a p text q phrases := by
  obtain ⟨text, reached⟩ := h
  obtain ⟨less, same, success⟩ := Pattern.exists_success reached
  exact ⟨less, text, same, success⟩

/-- Every match needs a step of the budget. -/
theorem exists_succ (h : ReadsWithin budget visible a p phrases q) :
    ∃ less, budget = less + 1 := by
  obtain ⟨less, -, same, -⟩ := h.exists_success
  exact ⟨less, same⟩

theorem not_zero : ¬ ReadsWithin 0 visible a p phrases q := by
  intro h
  obtain ⟨_, impossible⟩ := h.exists_succ
  cases impossible

theorem literal_inv {text : List Char} (h : ReadsWithin budget visible (literal text) p phrases q) :
    p.rest = text ++ q.rest ∧ q = p.advance text ∧ phrases = [] := by
  obtain ⟨_, _, -, success⟩ := h.exists_success
  cases success with
  | literal stands => exact ⟨by rw [Position.rest_advance stands, stands], rfl, rfl⟩

theorem char_inv {among : CharClass} (h : ReadsWithin budget visible (char among) p phrases q) :
    ∃ c, among.contains c = true ∧ p.rest = c :: q.rest ∧ q = p.advance [c] ∧ phrases = [] := by
  obtain ⟨_, _, -, success⟩ := h.exists_success
  cases success with
  | @char _ _ _ c rest stands inside =>
    have behind : (p.advance [c]).rest = rest := Position.rest_advance stands
    exact ⟨c, inside, by rw [behind, stands], rfl, rfl⟩

/-- The inside of a rule that leaves a phrase, read with less of the budget. -/
theorem call_inv {rule : Rule} (named : rule.kind ≠ .silent)
    (h : ReadsWithin (budget + 1) true (call rule) p phrases q) :
    ∃ text children, phrases = [⟨rule, p.offset, text, children⟩] ∧
      p.rest = text ++ q.rest ∧ q = p.advance text ∧
      ReadsWithin budget (rule.kind == .plain) rule.body p children q := by
  obtain ⟨_, text, same, success⟩ := h.exists_success
  obtain rfl := Nat.succ.inj same
  cases success with
  | shown _ body =>
    obtain ⟨stands, stop⟩ := outcome_text body
    exact ⟨text, _, rfl, stands, stop, text, body⟩
  | hidden silent _ => simp [named] at silent

theorem call_hidden_inv {rule : Rule} (hidden : visible = false ∨ rule.kind = .silent)
    (h : ReadsWithin (budget + 1) visible (call rule) p phrases q) :
    ReadsWithin budget visible rule.body p phrases q := by
  obtain ⟨_, text, same, success⟩ := h.exists_success
  obtain rfl := Nat.succ.inj same
  cases success with
  | shown named _ => simp [named] at hidden
  | hidden _ body => exact ⟨text, body⟩

/-- The inside of a rule, whatever it leaves. -/
theorem body {r : Rule} (h : ReadsWithin (budget + 1) visible (call r) p phrases q) :
    ∃ visible' phrases', ReadsWithin budget visible' r.body p phrases' q := by
  obtain ⟨_, text, same, success⟩ := h.exists_success
  obtain rfl := Nat.succ.inj same
  cases success with
  | shown _ body | hidden _ body => exact ⟨_, _, text, body⟩

theorem seq_inv (h : ReadsWithin budget visible (seq a b) p phrases q) :
    ∃ phrases₁ m phrases₂, ReadsWithin budget visible a p phrases₁ m ∧
      ReadsWithin budget visible b m phrases₂ q ∧ phrases = phrases₁ ++ phrases₂ := by
  obtain ⟨less, _, rfl, success⟩ := h.exists_success
  cases success with
  | @seq _ _ _ _ m _ _ _ phrases₁ phrases₂ front back =>
    have first : ReadsWithin less visible a p phrases₁ m := ⟨_, front⟩
    have second : ReadsWithin less visible b m phrases₂ q := ⟨_, back⟩
    exact ⟨_, m, _, first.mono (Nat.le_succ less), second.mono (Nat.le_succ less), rfl⟩

theorem choice_inv (h : ReadsWithin budget visible (choice a b) p phrases q) :
    ReadsWithin budget visible a p phrases q ∨
      Fails visible a p ∧ ReadsWithin budget visible b p phrases q := by
  obtain ⟨less, text, rfl, success⟩ := h.exists_success
  cases success with
  | left first =>
    have taken : ReadsWithin less visible a p phrases q := ⟨text, first⟩
    exact .inl (taken.mono (Nat.le_succ less))
  | right failed second =>
    have taken : ReadsWithin less visible b p phrases q := ⟨text, second⟩
    exact .inr ⟨⟨less, failed⟩, taken.mono (Nat.le_succ less)⟩

/-- What holds of no item, and is kept by an item in front, holds of a repetition. -/
theorem many_induction {R : Position → List Phrase → Prop}
    (h : ReadsWithin budget visible (many a) p phrases q) (nil : R q [])
    (cons : ∀ p phrases₁ m phrases₂, ReadsWithin budget visible a p phrases₁ m →
      ReadsWithin budget visible (many a) m phrases₂ q → R m phrases₂ → R p (phrases₁ ++ phrases₂)) :
    R p phrases := by
  suffices within : ∀ less ≤ budget, ∀ p phrases,
      ReadsWithin less visible (many a) p phrases q → R p phrases from
    within budget (Nat.le_refl budget) p phrases h
  intro less
  induction less with
  | zero => exact fun _ _ _ h => absurd h not_zero
  | succ less ih =>
    intro le p phrases h
    obtain ⟨_, _, same, success⟩ := h.exists_success
    obtain rfl := Nat.succ.inj same
    cases success with
    | stop _ => exact nil
    | @more _ _ _ m _ _ _ phrases₁ phrases₂ front back =>
      have first : ReadsWithin less visible a p phrases₁ m := ⟨_, front⟩
      have rest : ReadsWithin less visible (many a) m phrases₂ q := ⟨_, back⟩
      exact cons p phrases₁ m phrases₂ (first.mono (by omega)) (rest.mono (by omega))
        (ih (by omega) m phrases₂ rest)

theorem absent_inv (h : ReadsWithin budget visible (absent a) p phrases q) :
    Fails false a p ∧ q = p ∧ phrases = [] := by
  obtain ⟨less, _, rfl, success⟩ := h.exists_success
  cases success with
  | absent failed => exact ⟨⟨less, failed⟩, rfl, rfl⟩

end ReadsWithin

section Introduction

variable {a b : Pattern}

/-- Two matches within one budget. -/
theorem Reads.within_both {visible' : Bool} {p' q' : Position} {phrases' : List Phrase}
    (h : Reads visible a p phrases q) (h' : Reads visible' b p' phrases' q') :
    ∃ budget, ReadsWithin budget visible a p phrases q ∧
      ReadsWithin budget visible' b p' phrases' q' := by
  obtain ⟨n, within⟩ := h
  obtain ⟨n', within'⟩ := h'
  exact ⟨max n n', within.mono (Nat.le_max_left n n'), within'.mono (Nat.le_max_right n n')⟩

theorem FailsWithin.mono (h : FailsWithin budget visible a p) (le : budget ≤ larger) :
    FailsWithin larger visible a p :=
  outcome_mono h (by simp) le

theorem Reads.text (h : Reads visible a p phrases q) : p.Reaches q := by
  obtain ⟨_, text, reached⟩ := h
  exact ⟨text, outcome_text reached⟩

/-- A match is determined by the pattern and the position. -/
theorem Reads.unique {phrases' : List Phrase} {q' : Position} (h : Reads visible a p phrases q)
    (h' : Reads visible a p phrases' q') : phrases' = phrases ∧ q' = q := by
  obtain ⟨n, ⟨_, reached⟩, ⟨_, reached'⟩⟩ := h.within_both h'
  rw [reached] at reached'
  cases reached'
  exact ⟨rfl, rfl⟩

theorem Reads.not_fails (h : Reads visible a p phrases q) : ¬ Fails visible a p := by
  rintro ⟨n', failed⟩
  obtain ⟨n, within⟩ := h
  obtain ⟨_, reached⟩ := within.mono (Nat.le_max_left n n')
  have failed := failed.mono (Nat.le_max_right n n')
  rw [FailsWithin, reached] at failed
  cases failed

theorem reads_literal {text rest : List Char} (h : p.rest = text ++ rest) :
    Reads visible (literal text) p [] (p.advance text) := by
  refine ⟨1, text, ?_⟩
  rw [outcome_literal, if_pos]
  exact List.isPrefixOf_iff_prefix.mpr ⟨rest, h.symm⟩

theorem fails_literal {text : List Char} (h : ¬ text <+: p.rest) :
    Fails visible (literal text) p := by
  refine ⟨1, ?_⟩
  rw [FailsWithin, outcome_literal, if_neg]
  exact fun stands => h (List.isPrefixOf_iff_prefix.mp stands)

theorem reads_char {among : CharClass} {c : Char} {rest : List Char} (h : p.rest = c :: rest)
    (inside : among.contains c = true) : Reads visible (char among) p [] (p.advance [c]) := by
  refine ⟨1, [c], ?_⟩
  rw [outcome_char, h]
  exact if_pos inside

theorem fails_char {among : CharClass}
    (h : ∀ c rest, p.rest = c :: rest → among.contains c = false) :
    Fails visible (char among) p := by
  refine ⟨1, ?_⟩
  rw [FailsWithin, outcome_char]
  rcases stands : p.rest with _ | ⟨c, rest⟩
  · rfl
  · exact if_neg (by simp [h c rest stands])

/-- A rule that leaves a phrase: the phrase holds what was read and what the inside left. -/
theorem reads_call {rule : Rule} (named : rule.kind ≠ .silent)
    (h : Reads (rule.kind == .plain) rule.body p phrases q) :
    ∃ text, p.rest = text ++ q.rest ∧ q = p.advance text ∧
      Reads true (call rule) p [⟨rule, p.offset, text, phrases⟩] q := by
  obtain ⟨n, text, reached⟩ := h
  obtain ⟨stands, stop⟩ := outcome_text reached
  refine ⟨text, stands, stop, n + 1, text, ?_⟩
  rw [outcome_call_visible _ _ named, reached]

theorem fails_call {rule : Rule} (named : rule.kind ≠ .silent)
    (h : Fails (rule.kind == .plain) rule.body p) : Fails true (call rule) p := by
  obtain ⟨n, failed⟩ := h
  refine ⟨n + 1, ?_⟩
  rw [FailsWithin, outcome_call_visible _ _ named, failed]

theorem reads_call_hidden {rule : Rule} (hidden : visible = false ∨ rule.kind = .silent)
    (h : Reads visible rule.body p phrases q) : Reads visible (call rule) p phrases q := by
  obtain ⟨n, text, reached⟩ := h
  refine ⟨n + 1, text, ?_⟩
  rw [outcome_call_hidden _ _ _ hidden, reached]

theorem fails_call_hidden {rule : Rule} (hidden : visible = false ∨ rule.kind = .silent)
    (h : Fails visible rule.body p) : Fails visible (call rule) p := by
  obtain ⟨n, failed⟩ := h
  refine ⟨n + 1, ?_⟩
  rw [FailsWithin, outcome_call_hidden _ _ _ hidden, failed]

theorem reads_seq {m : Position} {phrases' : List Phrase} (h : Reads visible a p phrases m)
    (h' : Reads visible b m phrases' q) : Reads visible (seq a b) p (phrases ++ phrases') q := by
  obtain ⟨n, ⟨text, first⟩, ⟨text', second⟩⟩ := h.within_both h'
  refine ⟨n + 1, text ++ text', ?_⟩
  rw [outcome_seq, first]
  dsimp only
  rw [second]

theorem fails_seq_left (h : Fails visible a p) : Fails visible (seq a b) p := by
  obtain ⟨n, failed⟩ := h
  refine ⟨n + 1, ?_⟩
  rw [FailsWithin, outcome_seq, failed]

theorem Reads.fails_seq {m : Position} (h : Reads visible a p phrases m) (h' : Fails visible b m) :
    Fails visible (seq a b) p := by
  obtain ⟨n, within⟩ := h
  obtain ⟨n', failed⟩ := h'
  obtain ⟨text, first⟩ := within.mono (Nat.le_max_left n n')
  have second := failed.mono (Nat.le_max_right n n')
  refine ⟨max n n' + 1, ?_⟩
  rw [FailsWithin, outcome_seq, first]
  dsimp only
  rw [second]

theorem Reads.choice_left (h : Reads visible a p phrases q) :
    Reads visible (choice a b) p phrases q := by
  obtain ⟨n, text, reached⟩ := h
  refine ⟨n + 1, text, ?_⟩
  rw [outcome_choice, reached]

theorem Reads.choice_right (failed : Fails visible a p) (h : Reads visible b p phrases q) :
    Reads visible (choice a b) p phrases q := by
  obtain ⟨n', failed⟩ := failed
  obtain ⟨n, within⟩ := h
  obtain ⟨text, reached⟩ := within.mono (Nat.le_max_left n n')
  have failed := failed.mono (Nat.le_max_right n n')
  refine ⟨max n n' + 1, text, ?_⟩
  rw [outcome_choice, failed, reached]

theorem fails_choice (h : Fails visible a p) (h' : Fails visible b p) :
    Fails visible (choice a b) p := by
  obtain ⟨n, failed⟩ := h
  obtain ⟨n', failed'⟩ := h'
  refine ⟨max n n' + 1, ?_⟩
  rw [FailsWithin, outcome_choice, failed.mono (Nat.le_max_left n n')]
  exact failed'.mono (Nat.le_max_right n n')

theorem reads_many_nil (h : Fails visible a p) : Reads visible (many a) p [] p := by
  obtain ⟨n, failed⟩ := h
  refine ⟨n + 1, [], ?_⟩
  rw [outcome_many, failed]

theorem Reads.many_cons {m : Position} {phrases' : List Phrase} (h : Reads visible a p phrases m)
    (h' : Reads visible (many a) m phrases' q) :
    Reads visible (many a) p (phrases ++ phrases') q := by
  obtain ⟨n, ⟨text, first⟩, ⟨text', rest⟩⟩ := h.within_both h'
  refine ⟨n + 1, text ++ text', ?_⟩
  rw [outcome_many, first]
  dsimp only
  rw [rest]

theorem reads_absent (h : Fails false a p) : Reads visible (absent a) p [] p := by
  obtain ⟨n, failed⟩ := h
  refine ⟨n + 1, [], ?_⟩
  rw [outcome_absent, failed]

theorem fails_absent (h : Reads false a p phrases q) : Fails visible (absent a) p := by
  obtain ⟨n, text, reached⟩ := h
  refine ⟨n + 1, ?_⟩
  rw [FailsWithin, outcome_absent, reached]

end Introduction

section Inversion

variable {a b : Pattern} {r : Rule}

theorem Reads.seq_inv (h : Reads visible (seq a b) p phrases q) :
    ∃ phrases₁ m phrases₂, Reads visible a p phrases₁ m ∧ Reads visible b m phrases₂ q ∧
      phrases = phrases₁ ++ phrases₂ := by
  obtain ⟨_, within⟩ := h
  obtain ⟨_, m, _, first, second, split⟩ := within.seq_inv
  exact ⟨_, m, _, first.reads, second.reads, split⟩

theorem Reads.choice_inv (h : Reads visible (choice a b) p phrases q) :
    Reads visible a p phrases q ∨ Fails visible a p ∧ Reads visible b p phrases q := by
  obtain ⟨_, within⟩ := h
  exact within.choice_inv.imp ReadsWithin.reads (And.imp_right ReadsWithin.reads)

theorem Reads.call_inv (named : r.kind ≠ .silent) (h : Reads true (call r) p phrases q) :
    ∃ text children, phrases = [⟨r, p.offset, text, children⟩] ∧ p.rest = text ++ q.rest ∧
      q = p.advance text ∧ Reads (r.kind == .plain) r.body p children q := by
  obtain ⟨_, within⟩ := h
  obtain ⟨less, rfl⟩ := within.exists_succ
  obtain ⟨text, children, single, stands, stop, inside⟩ := within.call_inv named
  exact ⟨text, children, single, stands, stop, inside.reads⟩

theorem Reads.node_inv (plain : r.kind = .plain) (h : Reads true (call r) p phrases q) :
    ∃ children, Reads true r.body p children q := by
  obtain ⟨_, children, -, -, -, inside⟩ := h.call_inv (by simp [plain])
  rw [plain] at inside
  exact ⟨children, inside⟩

theorem Reads.absent_inv (h : Reads visible (absent a) p phrases q) :
    Fails false a p ∧ q = p ∧ phrases = [] := by
  obtain ⟨_, within⟩ := h
  exact within.absent_inv

theorem Reads.literal_inv {text : List Char} (h : Reads visible (literal text) p phrases q) :
    p.rest = text ++ q.rest ∧ q = p.advance text ∧ phrases = [] := by
  obtain ⟨_, within⟩ := h
  exact within.literal_inv

theorem Fails.choice_inv (h : Fails visible (choice a b) p) :
    Fails visible a p ∧ Fails visible b p := by
  obtain ⟨n, failed⟩ := h
  cases n with
  | zero => cases failed
  | succ n =>
    rw [FailsWithin, outcome_choice] at failed
    cases front : outcome n visible a p with
    | matched text m phrases =>
      rw [front] at failed
      cases failed
    | failed =>
      rw [front] at failed
      exact ⟨⟨n, front⟩, n, failed⟩
    | exhausted =>
      rw [front] at failed
      cases failed

theorem Fails.node (plain : r.kind = .plain) (h : Fails true r.body p) : Fails true (call r) p := by
  apply fails_call
  · simp [plain]
  · rw [plain]
    exact h

end Inversion

end Pattern

end SyntaxTree
