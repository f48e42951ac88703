import SyntaxTree.Proofs.Matching.Reads

/-!
# The budget is enough

A match nests a bounded number of steps before it reads a character, and each
character allows for a fixed number of further ones. So the budget of a position
never runs out, and whether a rule matches is settled by `Reads` and `Fails`.

`Tries` tells which parts of a pattern are matched, and where. A part weighs less
than the whole, if a weight is made of the rest of the text and the cost of the
pattern. Whatever is carried from the parts of a pattern to the whole holds then by
induction on the budget.
-/

namespace SyntaxTree

/-- A bound on the nested steps of a rule before it has read its first character. -/
def Rule.rank : Rule → Nat
  | keyword => 17
  | ident => 20
  | place => 22
  | declarator | prefixIncDec | postfixIncDec | assignment => 24
  | incDec | forInitClause => 27
  | primary | expressionStmt | initializationStmt | forUpdateClause => 30
  | multiplicative => 33
  | additive => 36
  | relational | statement => 39
  | equality => 42
  | logicalAnd => 45
  | logicalOr => 48
  | varDecl | arrayDecl | returnType | modifier | newExpr | parameter | dims | ifStmt | ifElseStmt
  | forStmt => 8
  | arrayInit | arrayInitializer | methodDecl | assignOp | relOp => 11
  | declarationStmt | classDecl | forHeader => 14
  | program => 17
  | _ => 5

namespace Pattern

/-- The pattern reads at least one character. -/
def consumes : Pattern → Bool
  | literal text => !text.isEmpty
  | char _ => true
  | call r => r != .endOfInput
  | seq a b => consumes a || consumes b
  | choice a b => consumes a && consumes b
  | many _ | absent _ => false

/-- A bound on the nested steps of a pattern, beyond those that the characters allow for. -/
def cost : Pattern → Nat
  | literal _ | char _ => 1
  | call r => r.rank + 1
  | seq a b => max a.cost (if a.consumes then b.cost - 64 else b.cost) + 1
  | choice a b => max a.cost b.cost + 1
  | many a => a.cost + 1
  | absent a => a.cost + 1

/-- No repeated item is empty. -/
def isProgressive : Pattern → Bool
  | literal _ | char _ | call _ => true
  | seq a b => a.isProgressive && b.isProgressive
  | choice a b => a.isProgressive && b.isProgressive
  | many a => a.consumes && a.isProgressive
  | absent a => a.isProgressive

theorem consumes_body {r : Rule} (h : r ≠ .endOfInput) : r.body.consumes = true := by
  revert h
  cases r <;> decide

theorem cost_body (r : Rule) : r.body.cost ≤ r.rank := by
  cases r <;> decide

theorem rank_lt (r : Rule) : r.rank < 64 := by
  cases r <;> decide

theorem isProgressive_body (r : Rule) : r.body.isProgressive = true := by
  cases r <;> decide

variable {n : Nat} {visible : Bool} {pattern : Pattern} {p q : Position} {phrases : List Phrase}

theorem ReadsWithin.length_le (h : ReadsWithin n visible pattern p phrases q) :
    q.rest.length ≤ p.rest.length := by
  obtain ⟨text, reached⟩ := h
  rw [(outcome_text reached).1, List.length_append]
  omega

theorem ReadsWithin.length_lt (consumes : pattern.consumes = true)
    (h : ReadsWithin n visible pattern p phrases q) : q.rest.length < p.rest.length := by
  induction n generalizing visible pattern p phrases q with
  | zero => exact absurd h ReadsWithin.not_zero
  | succ n ih =>
    induction pattern generalizing visible p phrases q with
    | literal text =>
      obtain ⟨stands, -, -⟩ := h.literal_inv
      have positive : text ≠ [] := by simpa [Pattern.consumes] using consumes
      rw [stands, List.length_append]
      have := List.length_pos_iff.mpr positive
      omega
    | char among =>
      obtain ⟨c, -, stands, -, -⟩ := h.char_inv
      rw [stands, List.length_cons]
      omega
    | call r =>
      obtain ⟨_, _, inside⟩ := h.body
      exact ih (consumes_body (by simpa [Pattern.consumes] using consumes)) inside
    | seq a b iha ihb =>
      obtain ⟨_, m, _, first, second, -⟩ := h.seq_inv
      have front := first.length_le
      have back := second.length_le
      rw [Pattern.consumes, Bool.or_eq_true] at consumes
      rcases consumes with left | right
      · have := iha left first
        omega
      · have := ihb right second
        omega
    | choice a b iha ihb =>
      rw [Pattern.consumes, Bool.and_eq_true] at consumes
      rcases h.choice_inv with first | ⟨-, second⟩
      · exact iha consumes.1 first
      · exact ihb consumes.2 second
    | many a _ => cases consumes
    | absent a _ => cases consumes

theorem Reads.length_le (h : Reads visible pattern p phrases q) :
    q.rest.length ≤ p.rest.length := by
  obtain ⟨_, within⟩ := h
  exact within.length_le

theorem Reads.length_lt (consumes : pattern.consumes = true)
    (h : Reads visible pattern p phrases q) : q.rest.length < p.rest.length := by
  obtain ⟨_, within⟩ := h
  exact within.length_lt consumes

/-- While the pattern is matched at `p`, a part of it is matched at `q`. The pattern of a
rule is no part of a call. -/
inductive Tries : Pattern → Position → Pattern → Position → Prop
  | first {a b : Pattern} {p : Position} : Tries (seq a b) p a p
  | second {a b : Pattern} {p q : Position} {visible : Bool} {phrases : List Phrase}
      (front : Reads visible a p phrases q) : Tries (seq a b) p b q
  | left {a b : Pattern} {p : Position} : Tries (choice a b) p a p
  | right {a b : Pattern} {p : Position} {visible : Bool} (failed : Fails visible a p) :
      Tries (choice a b) p b p
  | item {a : Pattern} {p : Position} : Tries (many a) p a p
  | items {a : Pattern} {p q : Position} {visible : Bool} {phrases : List Phrase}
      (front : Reads visible a p phrases q) : Tries (many a) p (many a) q
  | ahead {a : Pattern} {p : Position} : Tries (absent a) p a p

theorem Tries.isProgressive {part : Pattern} (h : Tries pattern p part q)
    (progressive : pattern.isProgressive = true) : part.isProgressive = true := by
  cases h with
  | first | left => exact (Bool.and_eq_true_iff.mp progressive).1
  | second | right | item => exact (Bool.and_eq_true_iff.mp progressive).2
  | items | ahead => exact progressive

/-- A part weighs less than the whole: it costs less, or something is read before it. -/
theorem Tries.weight_lt {part : Pattern} (h : Tries pattern p part q)
    (progressive : pattern.isProgressive = true) :
    64 * q.rest.length + part.cost < 64 * p.rest.length + pattern.cost := by
  cases h with
  | first | left | right | item | ahead =>
    rw [cost]
    omega
  | second front =>
    have := front.length_le
    rw [cost]
    split
    · have := front.length_lt ‹_›
      omega
    · omega
  | items front =>
    have := front.length_lt (Bool.and_eq_true_iff.mp progressive).1
    omega

/-- What is tried stands ahead in the same text. -/
theorem Tries.text {part : Pattern} (h : Tries pattern p part q) : p.Reaches q := by
  cases h with
  | first | left | right | item | ahead => exact .refl p
  | second front | items front => exact front.text

/-- A match comes to an end if those of its parts do. -/
theorem outcome_succ_ne_exhausted
    (called : ∀ r v, pattern = call r → outcome n v r.body p ≠ .exhausted)
    (parts : ∀ v part q, Tries pattern p part q → outcome n v part q ≠ .exhausted) :
    outcome (n + 1) visible pattern p ≠ .exhausted := by
  cases pattern with
  | literal text =>
    rw [outcome_literal]
    split <;> simp
  | char among =>
    rw [outcome_char]
    split
    · simp
    · split <;> simp
  | call r =>
    have inside (v : Bool) : outcome n v r.body p ≠ .exhausted := called r v rfl
    rcases hidden_or_named visible r with hidden | ⟨rfl, named⟩
    · rw [outcome_call_hidden _ _ _ hidden]
      exact inside visible
    · rw [outcome_call_visible _ _ named]
      have body := inside (r.kind == .plain)
      revert body
      cases outcome n (r.kind == .plain) r.body p <;> simp
  | seq a b =>
    rw [outcome_seq]
    rcases front : outcome n visible a p with ⟨text, m, phrases⟩ | _ | _
    · have second := parts visible b m (.second ⟨n, text, front⟩)
      dsimp only
      revert second
      cases outcome n visible b m <;> simp
    · simp
    · exact absurd front (parts visible a p .first)
  | choice a b =>
    rw [outcome_choice]
    rcases front : outcome n visible a p with ⟨text, m, phrases⟩ | _ | _
    · simp
    · exact parts visible b p (.right ⟨n, front⟩)
    · exact absurd front (parts visible a p .left)
  | many a =>
    rw [outcome_many]
    rcases front : outcome n visible a p with ⟨text, m, phrases⟩ | _ | _
    · have others := parts visible (many a) m (.items ⟨n, text, front⟩)
      dsimp only
      revert others
      cases outcome n visible (many a) m <;> simp
    · simp
    · exact absurd front (parts visible a p .item)
  | absent a =>
    have inside := parts false a p .ahead
    rw [outcome_absent]
    revert inside
    cases outcome n false a p <;> simp

/-- Within a budget that covers the cost, a match comes to an end. -/
theorem outcome_ne_exhausted (progressive : pattern.isProgressive = true)
    (enough : 64 * p.rest.length + pattern.cost ≤ n) : outcome n visible pattern p ≠ .exhausted := by
  induction n generalizing visible pattern p with
  | zero =>
    have : 0 < pattern.cost := by cases pattern <;> simp [cost]
    omega
  | succ n ih =>
    refine outcome_succ_ne_exhausted ?_ fun v part q tried => ?_
    · rintro r v rfl
      have := cost_body r
      rw [cost] at enough
      exact ih (isProgressive_body r) (by omega)
    · have := tried.weight_lt progressive
      exact ih (tried.isProgressive progressive) (by omega)

theorem reads_or_fails_of_progressive (progressive : pattern.isProgressive = true) (p : Position) :
    (∃ phrases q, Reads visible pattern p phrases q) ∨ Fails visible pattern p := by
  have settled : outcome (64 * p.rest.length + pattern.cost) visible pattern p ≠ .exhausted :=
    outcome_ne_exhausted progressive (Nat.le_refl _)
  rcases found : outcome (64 * p.rest.length + pattern.cost) visible pattern p with
    ⟨text, q, phrases⟩ | _ | _
  · exact .inl ⟨phrases, q, _, text, found⟩
  · exact .inr ⟨_, found⟩
  · exact absurd found settled

end Pattern

namespace Rule

open Pattern

variable {r : Rule} {text : List Char} {ps : List Phrase}

/-- A rule that matched has read its phrases from the start of the text. -/
theorem reads_of_phrases (h : r.phrases text = .ok ps) :
    ∃ q, Reads true (.call r) (.atStart text) ps q := by
  have within : outcome (Position.atStart text).budget true (.call r) (.atStart text) =
      (r.matchAt (.atStart text)).1 := rfl
  rw [phrases] at h
  split at h
  · rename_i found
    rw [found] at within
    cases h
    exact ⟨_, _, _, within⟩
  · cases h

/-- The budget of a position is enough for every rule. -/
theorem matchAt_ne_exhausted (r : Rule) (p : Position) : (r.matchAt p).1 ≠ .exhausted := by
  have rank := rank_lt r
  have settled : outcome p.budget true (.call r) p ≠ .exhausted := by
    refine outcome_ne_exhausted rfl ?_
    rw [Position.budget, cost]
    omega
  exact settled

theorem reads_or_fails (r : Rule) (p : Position) :
    (∃ phrases q, Reads true (.call r) p phrases q) ∨ Fails true (.call r) p :=
  reads_or_fails_of_progressive rfl p

/-- A rule matches whatever can be read with any budget. -/
theorem phrases_of_reads {q : Position} (h : Reads true (.call r) (.atStart text) ps q) :
    r.phrases text = .ok ps := by
  have settled : outcome (Position.atStart text).budget true (.call r) (.atStart text) ≠
      .exhausted := matchAt_ne_exhausted r (.atStart text)
  obtain ⟨n, text', reached⟩ := h
  have same : (r.matchAt (.atStart text)).1 = .matched text' q ps := by
    have larger := outcome_mono reached (by simp) (Nat.le_max_right (Position.atStart text).budget n)
    exact (outcome_mono rfl settled (Nat.le_max_left _ n)).symm.trans larger
  rw [phrases]
  rcases found : r.matchAt (.atStart text) with ⟨o, f⟩
  rw [found] at same
  rw [show o = .matched text' q ps from same]

end Rule

end SyntaxTree
