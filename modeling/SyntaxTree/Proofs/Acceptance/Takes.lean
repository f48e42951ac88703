import SyntaxTree.Proofs.Derivation.Basic

/-!
# Matching on lexemes

What the grammar reads between two gaps depends on the lexemes that are left, and
on nothing else of the text. `Takes` and `Refuses` say what a pattern does in
front of given lexemes, in whatever text they stand, and the rules below compose
them like the patterns are composed.
-/

namespace SyntaxTree.Pattern

open Rule Lexeme

/-- Behind this position the lexemes are left, and no gap stands in front of them. -/
structure Stands (p : Position) (us : List Lexeme) : Prop where
  still : skip p.rest = p.rest
  spells : Spells p.rest us []

/-- In front of the first lexemes the pattern matches, and leaves the second ones. -/
def Takes (pattern : Pattern) (us vs : List Lexeme) (trees : List Tree) : Prop :=
  ∀ p, Stands p us → ∃ phrases q, Reads true pattern p phrases q ∧ Spells q.rest vs [] ∧
    Phrase.trees phrases = trees

/-- In front of the lexemes the pattern does not match. -/
def Refuses (pattern : Pattern) (us : List Lexeme) : Prop :=
  ∀ p, Stands p us → Fails true pattern p

variable {a b : Pattern} {r : Rule} {p : Position} {t : Lexeme} {us vs ws : List Lexeme}
variable {trees trees' : List Tree} {items : List Pattern}

/-- The first lexeme that is left, and the text behind it. -/
theorem Stands.split (h : Stands p (t :: us)) : ∃ rest, p.rest = t ++ rest ∧
    longest? p.rest = some t ∧ touches t rest = false ∧ Spells rest us [] :=
  h.spells.cons_inv h.still

/-- Behind a gap the same lexemes are left. -/
theorem exists_stands (h : Spells p.rest us []) : ∃ q, Reads true skipped p [] q ∧ Stands q us := by
  have rest : (p.advance (gap p.rest)).rest = skip p.rest := rfl
  refine ⟨_, reads_skipped p, ?_, ?_⟩
  · rw [rest, skip_skip]
  · rw [rest]
    exact h.congr (skip_skip _).symm

/-! ## One after the other -/

theorem spaced_cons (nonempty : items ≠ []) :
    spaced (a :: items) = seq a (seq skipped (spaced items)) := by
  obtain ⟨next, items, rfl⟩ := List.exists_cons_of_ne_nil nonempty
  rfl

theorem Takes.before (h : Takes a us vs trees) (nonempty : items ≠ [])
    (h' : Takes (spaced items) vs ws trees') : Takes (spaced (a :: items)) us ws (trees ++ trees') := by
  rw [spaced_cons nonempty]
  intro p stands
  obtain ⟨phrases, m, first, behind, rfl⟩ := h p stands
  obtain ⟨m', gap, stands'⟩ := exists_stands behind
  obtain ⟨phrases', q, second, left, rfl⟩ := h' m' stands'
  exact ⟨_, q, reads_seq first (reads_seq gap second), left, Phrase.trees_append _ _⟩

theorem Takes.then {next : Pattern} (h : Takes a us vs trees)
    (h' : Takes (spaced (next :: items)) vs ws trees') :
    Takes (spaced (a :: next :: items)) us ws (trees ++ trees') :=
  h.before (List.cons_ne_nil _ _) h'

theorem Takes.pair (h : Takes a us vs trees) (h' : Takes b vs ws trees') :
    Takes (spaced [a, b]) us ws (trees ++ trees') := by
  have last : Takes (spaced [b]) vs ws trees' := h'
  exact h.then last

/-- What comes behind is refused, and so is all of it. -/
theorem Takes.before_refused (h : Takes a us vs trees) (nonempty : items ≠ [])
    (h' : Refuses (spaced items) vs) : Refuses (spaced (a :: items)) us := by
  rw [spaced_cons nonempty]
  intro p stands
  obtain ⟨phrases, m, first, behind, -⟩ := h p stands
  obtain ⟨m', gap, stands'⟩ := exists_stands behind
  exact first.fails_seq (gap.fails_seq (h' m' stands'))

theorem Takes.then_refuses {next : Pattern} (h : Takes a us vs trees)
    (h' : Refuses (spaced (next :: items)) vs) : Refuses (spaced (a :: next :: items)) us :=
  h.before_refused (List.cons_ne_nil _ _) h'

theorem Takes.pair_refuses (h : Takes a us vs trees) (h' : Refuses b vs) :
    Refuses (spaced [a, b]) us := by
  have last : Refuses (spaced [b]) vs := h'
  exact h.then_refuses last

theorem Refuses.spaced (h : Refuses a us) : Refuses (spaced (a :: items)) us := by
  cases items with
  | nil => exact h
  | cons next items => exact fun p stands => fails_seq_left (h p stands)

/-! ## Alternatives and repetitions -/

theorem Takes.left (h : Takes a us vs trees) : Takes (choice a b) us vs trees := by
  intro p stands
  obtain ⟨phrases, q, reads, rest⟩ := h p stands
  exact ⟨phrases, q, reads.choice_left, rest⟩

theorem Takes.right (h : Refuses a us) (h' : Takes b us vs trees) :
    Takes (choice a b) us vs trees := by
  intro p stands
  obtain ⟨phrases, q, reads, rest⟩ := h' p stands
  exact ⟨phrases, q, reads.choice_right (h p stands), rest⟩

theorem Refuses.choice (h : Refuses a us) (h' : Refuses b us) : Refuses (choice a b) us :=
  fun p stands => fails_choice (h p stands) (h' p stands)

theorem reads_empty : Reads true empty p [] p := by
  have reads : Reads true (literal []) p [] (p.advance []) := reads_literal rfl
  rwa [Position.advance_nil] at reads

theorem takes_empty : Takes empty us us [] :=
  fun p stands => ⟨[], p, reads_empty, stands.spells, rfl⟩

/-- Among alternatives of which no other matches, one is taken. -/
theorem takes_oneOf (mem : a ∈ items) (h : Takes a us vs trees)
    (others : ∀ b ∈ items, b ≠ a → Refuses b us) : Takes (oneOf items) us vs trees := by
  induction items with
  | nil => cases mem
  | cons b items ih =>
    cases items with
    | nil =>
      obtain rfl := List.mem_singleton.mp mem
      exact h
    | cons next items =>
      by_cases same : b = a
      · subst same
        exact h.left
      · have behind : a ∈ next :: items := (List.mem_cons.mp mem).resolve_left (Ne.symm same)
        refine .right (others b (by simp) same) (ih behind fun c mem' => ?_)
        exact others c (List.mem_cons_of_mem b mem')

theorem takes_absent (h : ∀ p, Stands p us → Fails false a p) : Takes (absent a) us us [] :=
  fun p stands => ⟨[], p, reads_absent (h p stands), stands.spells, rfl⟩

theorem Takes.optional (h : Takes a us vs trees) : Takes (optional a) us vs trees := h.left

theorem Refuses.optional (h : Refuses a us) : Takes (optional a) us us [] := .right h takes_empty

/-- Items are taken one after the other, until the next one is refused. -/
inductive TakesMany (item : Pattern) : List Lexeme → List Lexeme → List Tree → Prop
  | stop {us : List Lexeme} (refused : Refuses item us) : TakesMany item us us []
  | more {us vs ws : List Lexeme} {trees trees' : List Tree} (first : Takes item us vs trees)
      (others : TakesMany item vs ws trees') : TakesMany item us ws (trees ++ trees')

theorem TakesMany.reads_many (h : TakesMany a us vs trees) (spells : Spells p.rest us []) :
    ∃ phrases q, Reads true (many (seq skipped a)) p phrases q ∧ Spells q.rest vs [] ∧
      Phrase.trees phrases = trees := by
  induction h generalizing p with
  | stop refused =>
    obtain ⟨m, gap, stands⟩ := exists_stands spells
    exact ⟨[], p, reads_many_nil (gap.fails_seq (refused m stands)), spells, rfl⟩
  | more first _ ih =>
    obtain ⟨m, gap, stands⟩ := exists_stands spells
    obtain ⟨phrases, m', item, behind, rfl⟩ := first m stands
    obtain ⟨phrases', q, others, left, rfl⟩ := ih behind
    exact ⟨_, q, (reads_seq gap item).many_cons others, left, Phrase.trees_append _ _⟩

theorem TakesMany.takes (h : TakesMany a us vs trees) : Takes (spacedMany a) us vs trees := by
  cases h with
  | stop refused =>
    have refused' : Refuses (seq a (many (seq skipped a))) us :=
      fun p stands => fails_seq_left (refused p stands)
    exact refused'.optional
  | more first others =>
    refine Takes.optional fun p stands => ?_
    obtain ⟨phrases, m, item, behind, rfl⟩ := first p stands
    obtain ⟨phrases', q, rest, left, rfl⟩ := others.reads_many behind
    exact ⟨_, q, reads_seq item rest, left, Phrase.trees_append _ _⟩

theorem TakesMany.takes_some (h : TakesMany a us vs trees) (nonempty : trees ≠ []) :
    Takes (spacedSome a) us vs trees := by
  cases h with
  | stop _ => exact absurd rfl nonempty
  | more first others => exact first.pair others.takes

/-! ## Words and rules -/

theorem takes_word (text : String) : Takes (word text) (text.toList :: us) us [] := by
  intro p stands
  obtain ⟨rest, split, -, -, spells⟩ := stands.split
  refine ⟨[], p.advance text.toList, reads_literal split, ?_, rfl⟩
  rwa [Position.rest_advance split]

/-- The first character of the first lexeme. -/
def firstChar? (us : List Lexeme) : Option Char := us.head?.bind List.head?

theorem firstChar?_append {c : Char} (h : firstChar? us = some c) :
    firstChar? (us ++ vs) = some c := by
  cases us with
  | nil => cases h
  | cons t us => exact h

/-- Where no gap stands in front, the text begins like its first lexeme. -/
theorem Stands.head? (h : Stands p us) : p.rest.head? = firstChar? us := by
  cases us with
  | nil =>
    cases h.spells with
    | done same =>
      rw [h.still, skip_nil] at same
      rw [same]
      rfl
  | cons t us =>
    obtain ⟨rest, -, longest, -, -⟩ := h.split
    exact (longest?_head longest).symm

theorem Stands.rest_nil (h : Stands p []) : p.rest = [] :=
  List.head?_eq_none_iff.mp h.head?

theorem Stands.fails_word {visible : Bool} {text : String} {c : Char} (h : Stands p us)
    (head : text.toList.head? = some c) (other : firstChar? us ≠ some c) :
    Fails visible (word text) p := by
  refine fails_literal fun front => other ?_
  obtain ⟨behind, split⟩ := front
  rw [← h.head?, ← split, List.head?_append, head]
  rfl

theorem refuses_word {text : String} {c : Char} (head : text.toList.head? = some c)
    (other : firstChar? us ≠ some c) : Refuses (word text) us :=
  fun _ stands => stands.fails_word head other

theorem Takes.node (plain : r.kind = .plain) (h : Takes r.body us vs trees) :
    Takes (call r) us vs [.node r trees] := by
  intro p stands
  obtain ⟨phrases, q, inside, left, rfl⟩ := h p stands
  have inside' : Reads (r.kind == .plain) r.body p phrases q := by
    rwa [plain]
  obtain ⟨text, -, -, reads⟩ := reads_call (by simp [plain]) inside'
  refine ⟨_, q, reads, left, ?_⟩
  simp [Phrase.trees, Phrase.tree, plain]

theorem Refuses.node (plain : r.kind = .plain) (h : Refuses r.body us) : Refuses (call r) us := by
  intro p stands
  exact Fails.node plain (h p stands)

theorem Takes.group (silent : r.kind = .silent) (h : Takes r.body us vs trees) :
    Takes (call r) us vs trees := by
  intro p stands
  obtain ⟨phrases, q, inside, rest⟩ := h p stands
  exact ⟨phrases, q, reads_call_hidden (.inr silent) inside, rest⟩

/-- The text begins with a lexeme where it begins with a character that opens no gap. -/
theorem firstChar?_of_spells {rest : List Char} {c : Char} (h : Spells rest us [])
    (head : rest.head? = some c) (blank : isGap c = false) (slash : c ≠ '/') :
    firstChar? us = some c := by
  obtain ⟨cs, rfl⟩ : ∃ cs, rest = c :: cs := by
    rcases rest with _ | ⟨d, cs⟩
    · cases head
    · exact ⟨cs, by rw [Option.some.inj head]⟩
  have still : skip (c :: cs) = c :: cs := skip_cons blank slash
  cases us with
  | nil =>
    cases h with
    | done same =>
      rw [still, skip_nil] at same
      cases same
  | cons t us =>
    obtain ⟨_, -, longest, -, -⟩ := h.cons_inv still
    rw [firstChar?, List.head?_cons, Option.bind_some, longest?_head longest]
    rfl

/-- Only signs of additions and comparisons bar a character behind them. -/
theorem barred_eq_nil (add : r ≠ .addOp) (rel : r ≠ .relOp) : r.barred t = [] := by
  unfold barred
  split <;> first | rfl | contradiction

theorem isClear_relOp {d : Char} {cs : List Char} (greater : d ≠ '>') (less : d ≠ '<') :
    relOp.isClear t (d :: cs) = true := by
  rw [isClear, List.head?_cons]
  unfold barred
  split <;> first | contradiction | simp [greater, less]

/-- In front of lexemes that do not touch an admitted one, the rule finds no barred character. -/
theorem isClear_of_spells {rest : List Char} (admitted : r.admits t = true)
    (free : touches t rest = false) (spells : Spells rest us [])
    (apart : r = .relOp → ∀ c, firstChar? us = some c → c ≠ '>' ∧ c ≠ '<') :
    r.isClear t rest = true := by
  rcases rest with _ | ⟨d, cs⟩
  · simp [isClear]
  · by_cases add : r = .addOp
    · subst add
      have symbol : t = ['+'] ∨ t = ['-'] := by simpa [admits, words, symbols] using admitted
      rcases symbol with rfl | rfl <;> simpa [touches, isClear, barred] using free
    · by_cases rel : r = .relOp
      · have wanted (blank : isGap d = false) (slash : d ≠ '/') : d ≠ '>' ∧ d ≠ '<' :=
          apart rel d (firstChar?_of_spells spells rfl blank slash)
        subst rel
        refine isClear_relOp ?_ ?_
        · rintro rfl
          exact (wanted (by decide) (by decide)).1 rfl
        · rintro rfl
          exact (wanted (by decide) (by decide)).2 rfl
      · simp [isClear, barred_eq_nil add rel]

/-- A lexical rule takes a lexeme that it admits. Only comparisons also look at what follows. -/
theorem takes_token (lexical : r.kind = .lexical) (admitted : r.admits t = true)
    (apart : r = .relOp → ∀ c, firstChar? us = some c → c ≠ '>' ∧ c ≠ '<') :
    Takes (call r) (t :: us) us [.token r t] := by
  intro p stands
  obtain ⟨rest, split, longest, free, spells⟩ := stands.split
  have clear := isClear_of_spells admitted free spells apart
  refine ⟨_, _, reads_lexical lexical longest split admitted clear, ?_, ?_⟩
  · rwa [Position.rest_advance split]
  · simp [Phrase.trees, Phrase.tree, lexical]

end SyntaxTree.Pattern
