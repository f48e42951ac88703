import SyntaxTree.Proofs.Acceptance.Heads

/-!
# The kinds of statements exclude each other

Of the kinds of statements at most one matches at a place, apart from a conditional,
which matches with its alternative and without it. Most pairs differ in their first
lexeme. Two pairs share more than that. A declaration and an initialization of an
array go on differently behind the declared array, and an assignment and a step go
on differently behind a place. There it counts that a rule reads the same at the same
place whoever enters it.
-/

namespace SyntaxTree

open Pattern Rule Lexeme

namespace Pattern

variable {a b : Pattern} {visible : Bool} {p q : Position} {phrases : List Phrase} {r : Rule}

/-- The front of a sequence reads where the whole does, and ends no later. -/
theorem Reads.spaced_front {front back : List Pattern} (nonempty : front ≠ [])
    (h : Reads visible (spaced (front ++ back)) p phrases q) :
    ∃ phrases' m, Reads visible (spaced front) p phrases' m ∧ m.Reaches q := by
  induction front generalizing p phrases with
  | nil => exact absurd rfl nonempty
  | cons item front ih =>
    cases front with
    | nil =>
      cases back with
      | nil => exact ⟨_, q, h, .refl q⟩
      | cons next back =>
        obtain ⟨_, m, _, first, others, -⟩ := h.seq_inv
        exact ⟨_, m, first, others.text⟩
    | cons next front =>
      obtain ⟨_, m, _, first, others, -⟩ := h.seq_inv
      obtain ⟨_, m', _, gap, rest, -⟩ := others.seq_inv
      obtain ⟨_, stop, inside, ahead⟩ := ih (List.cons_ne_nil _ _) rest
      exact ⟨_, stop, reads_seq first (reads_seq gap inside), ahead⟩

/-- The first item of a sequence reads where the sequence does. -/
theorem Reads.first {items : List Pattern} (h : Reads visible (spaced (a :: items)) p phrases q) :
    ∃ phrases' m, Reads visible a p phrases' m := by
  cases items with
  | nil => exact ⟨_, q, h⟩
  | cons next items =>
    obtain ⟨_, m, _, first, -, -⟩ := h.seq_inv
    exact ⟨_, m, first⟩

end Pattern

namespace Rule

variable {r s : Rule} {p q : Position} {phrases : List Phrase} {t : Lexeme}

/-- The kinds of statements, in the order of the grammar. -/
def statements : List Rule :=
  [ifElseStmt, ifStmt, forStmt, declarationStmt, initializationStmt, expressionStmt]

theorem statement_body : statement.body = oneOf (statements.map call) := rfl

/-! ## First lexemes -/

/-- A fixed lexeme stands where a rule for it reads. -/
theorem longest?_of_reads (lexical : r.kind = .lexical) (other : r ≠ number)
    (h : Reads true (call r) p phrases q) : ∃ t, longest? p.rest = some t ∧ r.admits t = true := by
  obtain ⟨t, -, -, admitted, -, -, longest⟩ := lexical_inv lexical h
  exact ⟨t, longest fun same => absurd same other, admitted⟩

/-- In front of a fixed word nothing reads that begins with none of the words of its rule. -/
theorem fails_of_word {pattern : Pattern} (lexical : r.kind = .lexical) (words : r.words ≠ [])
    (h : Reads true (call r) p phrases q)
    (avoided : ∀ t ∈ r.words, pattern.avoids (.fixed t.toList) = true) :
    Fails true pattern p := by
  have other : r ≠ number := by
    rintro rfl
    exact absurd rfl words
  obtain ⟨t, longest, admitted⟩ := longest?_of_reads lexical other h
  rw [admits_of_words words, List.contains_iff_mem] at admitted
  obtain ⟨word, mem, rfl⟩ := List.mem_map.mp admitted
  have covered : (Shape.fixed word.toList).covers word.toList = true := beq_self_eq_true _
  exact fails_of_avoids covered longest (avoided word mem)

/-- The kinds of statements behind a kind. A conditional is of one kind, with an alternative or
without. -/
def laterKinds : Rule → List Rule
  | ifElseStmt | ifStmt => [forStmt, declarationStmt, initializationStmt, expressionStmt]
  | forStmt => [declarationStmt, initializationStmt, expressionStmt]
  | declarationStmt => [initializationStmt, expressionStmt]
  | initializationStmt => [expressionStmt]
  | _ => []

/-- A conditional begins with its keyword, and so nothing else matches there. -/
theorem if_excludes (mem : r ∈ [ifElseStmt, ifStmt]) (h : Reads true (call r) p phrases q)
    (later : s ∈ ifStmt.laterKinds) : Fails true (call s) p := by
  have keyword : ∃ phrases' m, Reads true (call kwIf) p phrases' m := by
    simp only [List.mem_cons, List.not_mem_nil, or_false] at mem
    rcases mem with rfl | rfl
    · obtain ⟨_, body⟩ := h.node_inv rfl
      exact Reads.first body
    · obtain ⟨_, body⟩ := h.node_inv rfl
      exact Reads.first body
  obtain ⟨_, m, reads⟩ := keyword
  apply fails_of_word rfl (by decide) reads
  revert s
  decide

theorem for_excludes (h : Reads true (call forStmt) p phrases q)
    (later : s ∈ forStmt.laterKinds) : Fails true (call s) p := by
  obtain ⟨_, body⟩ := h.node_inv rfl
  obtain ⟨_, m, reads⟩ := Reads.first body
  apply fails_of_word rfl (by decide) reads
  revert s
  decide

theorem type_of_arrayDecl (h : Reads true (call arrayDecl) p phrases q) :
    ∃ phrases' m, Reads true (call dataType) p phrases' m := by
  obtain ⟨_, body⟩ := h.node_inv rfl
  exact Reads.first body

/-! ## Declarations and initializations -/

/-- What is declared ends at a semicolon, and what is initialized goes on with an equals sign. -/
theorem arrayInit_fails (h : Reads true declarationStmt.body p phrases q) :
    Fails true (call arrayInit) p := by
  apply Fails.node rfl
  obtain ⟨_, m, _, declared, ended, -⟩ := h.seq_inv
  rcases declared.choice_inv with array | ⟨failed, -⟩
  · obtain ⟨_, m', _, gap, closed, -⟩ := ended.seq_inv
    obtain ⟨_, within⟩ := closed
    obtain ⟨stands, -, -⟩ := within.literal_inv
    have other : Fails true (Pattern.word "=") m' := by
      apply fails_literal
      rintro ⟨rest, same⟩
      rw [stands] at same
      cases same
    exact array.fails_seq (gap.fails_seq (fails_seq_left other))
  · exact fails_seq_left failed

theorem declaration_excludes (h : Reads true (call declarationStmt) p phrases q)
    (later : s ∈ declarationStmt.laterKinds) : Fails true (call s) p := by
  obtain ⟨_, body⟩ := h.node_inv rfl
  obtain ⟨_, m, declared⟩ := Reads.first body
  have type : ∃ phrases' m, Reads true (call dataType) p phrases' m := by
    rcases declared.choice_inv with array | ⟨-, plain⟩
    · exact type_of_arrayDecl array
    · obtain ⟨_, body⟩ := plain.node_inv rfl
      exact Reads.first body
  obtain ⟨_, m, reads⟩ := type
  simp only [laterKinds, List.mem_cons, List.not_mem_nil, or_false] at later
  rcases later with rfl | rfl
  · have assignment : Fails true (call assignment) p :=
      fails_of_word rfl (by decide) reads (by decide)
    exact Fails.node rfl (fails_seq_left (fails_choice (arrayInit_fails body) assignment))
  · exact fails_of_word rfl (by decide) reads (by decide)

/-! ## Assignments and steps -/

theorem name_of_place (h : Reads true (call place) p phrases q) :
    ∃ t, longest? p.rest = some t ∧ isName t = true := by
  obtain ⟨_, body⟩ := h.node_inv rfl
  obtain ⟨_, m, reads⟩ := Reads.first body
  exact longest?_of_reads rfl (by decide) reads

/-- Behind a place stands an operator of an assignment or of a step, but not of both. -/
theorem incDec_fails (h : Reads true (call assignment) p phrases q) :
    Fails true (call incDec) p := by
  obtain ⟨_, body⟩ := h.node_inv rfl
  obtain ⟨_, m, _, target, others, -⟩ := body.seq_inv
  obtain ⟨_, m', _, gap, rest, -⟩ := others.seq_inv
  obtain ⟨_, stop, operator⟩ := Reads.first rest
  have before : Fails true (call prefixIncDec) p := by
    obtain ⟨t, longest, name⟩ := name_of_place target
    have covered : Shape.name.covers t = true := name
    exact fails_of_avoids covered longest (by decide)
  have after : Fails true (call postfixIncDec) p := by
    apply Fails.node rfl
    obtain ⟨t, longest, admitted⟩ := longest?_of_reads rfl (by decide) operator
    rw [admits_of_symbols (by decide), List.contains_iff_mem] at admitted
    have apart : ∀ t ∈ assignOp.symbols, incDecOp.admits t = false := by decide
    have failed : Fails true (call incDecOp) m' :=
      fails_lexical rfl longest (apart t admitted) fun number => by cases number
    exact target.fails_seq (gap.fails_seq failed)
  exact Fails.node rfl (fails_choice before after)

theorem initialization_excludes (h : Reads true (call initializationStmt) p phrases q) :
    Fails true (call expressionStmt) p := by
  obtain ⟨_, body⟩ := h.node_inv rfl
  obtain ⟨_, m, initialized⟩ := Reads.first body
  rcases initialized.choice_inv with array | ⟨-, assigned⟩
  · obtain ⟨_, inside⟩ := array.node_inv rfl
    obtain ⟨_, m, declared⟩ := Reads.first inside
    obtain ⟨_, m, reads⟩ := type_of_arrayDecl declared
    exact fails_of_word rfl (by decide) reads (by decide)
  · exact Fails.node rfl (fails_seq_left (incDec_fails assigned))

/-! ## All kinds -/

theorem fails_of_earlier (mem : r ∈ statements) (h : Reads true (call r) p phrases q)
    (later : s ∈ r.laterKinds) : Fails true (call s) p := by
  simp only [statements, List.mem_cons, List.not_mem_nil, or_false] at mem
  rcases mem with rfl | rfl | rfl | rfl | rfl | rfl
  · exact if_excludes (by decide) h later
  · exact if_excludes (by decide) h later
  · exact for_excludes h later
  · exact declaration_excludes h later
  · obtain rfl := List.mem_singleton.mp later
    exact initialization_excludes h
  · cases later

/-- The rule of a kind of statement, for conditionals the one without an alternative. -/
def kindOfStatement (r : Rule) : Rule := if r = ifElseStmt then ifStmt else r

/-- No two kinds of statements match at the same place. -/
theorem statement_kind_unique {q' : Position} {phrases' : List Phrase} (mem : r ∈ statements)
    (mem' : s ∈ statements) (h : Reads true (call r) p phrases q)
    (h' : Reads true (call s) p phrases' q') : r.kindOfStatement = s.kindOfStatement := by
  have ordered : ∀ r ∈ statements, ∀ s ∈ statements, r.kindOfStatement = s.kindOfStatement ∨
      s ∈ r.laterKinds ∨ r ∈ s.laterKinds := by decide
  rcases ordered r mem s mem' with same | later | earlier
  · exact same
  · exact absurd (fails_of_earlier mem h later) h'.not_fails
  · exact absurd (fails_of_earlier mem' h' earlier) h.not_fails

/-- A conditional with an alternative has one without it in front. -/
theorem ifStmt_of_ifElseStmt (h : Reads true (call ifElseStmt) p phrases q) :
    ∃ phrases' m, Reads true (call ifStmt) p phrases' m ∧ m.Reaches q := by
  obtain ⟨_, body⟩ := h.node_inv rfl
  have whole : Reads true (spaced ([call kwIf, Pattern.word "(", call logicalOr, Pattern.word ")",
      call block] ++ [call kwElse, call block])) p _ q := body
  obtain ⟨_, m, front, ahead⟩ := whole.spaced_front (List.cons_ne_nil _ _)
  have inside : Reads (ifStmt.kind == .plain) ifStmt.body p _ m := front
  obtain ⟨_, -, -, reads⟩ := reads_call (by decide) inside
  exact ⟨_, m, reads, ahead⟩

end Rule

end SyntaxTree
