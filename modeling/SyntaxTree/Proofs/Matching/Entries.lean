import SyntaxTree.Proofs.Matching.Budget

/-!
# Rules entered in the course of a match

While a rule is matched, its pattern enters other rules, and these enter further
ones. `Enters` tells which rules a pattern enters and where, whatever comes of them,
and `Nested` goes on from there to any depth.

A weight is put on every rule at a position: many units for each character of the
rest, and the rank of the rule. What is entered weighs less than what enters it. So
no rule comes back to itself where it stands, and nesting is no deeper than the
weight of the rule where it began.
-/

namespace SyntaxTree

namespace Pattern

/-- While the pattern is matched at `p`, the rule is entered at `q`. The rules that it
enters in turn do not count. -/
inductive Enters : Pattern → Position → Rule → Position → Prop
  | here {r : Rule} {p : Position} : Enters (call r) p r p
  | inside {pattern part : Pattern} {r : Rule} {p m q : Position} (tried : Tries pattern p part m)
      (entry : Enters part m r q) : Enters pattern p r q

variable {pattern : Pattern} {r : Rule} {p q : Position}

/-- A rule weighs less where it is entered than the pattern that enters it. -/
theorem Enters.weight_lt (h : Enters pattern p r q) (progressive : pattern.isProgressive = true) :
    64 * q.rest.length + r.rank < 64 * p.rest.length + pattern.cost := by
  induction h with
  | here =>
    rw [cost]
    omega
  | inside tried _ ih =>
    have lighter := tried.weight_lt progressive
    have := ih (tried.isProgressive progressive)
    omega

/-- What is entered stands ahead in the same text. -/
theorem Enters.text (h : Enters pattern p r q) : p.Reaches q := by
  induction h with
  | here => exact .refl _
  | inside tried _ ih => exact tried.text.trans ih

/-- An item of a repetition, without the skipping in front of it. -/
def ungapped : Pattern → Pattern
  | seq front item => if front = skipped then item else seq front item
  | item => item

/-- The items of all repetitions in a pattern. -/
def repeated : Pattern → List Pattern
  | literal _ | char _ | call _ => []
  | seq a b | choice a b => repeated a ++ repeated b
  | many item => item.ungapped :: repeated item
  | absent a => repeated a

/-- No item of a repetition is empty, and not only because something is skipped before it. -/
theorem consumes_of_mem_repeated (r : Rule) : ∀ item ∈ r.body.repeated, item.consumes = true := by
  cases r <;> decide

end Pattern

namespace Rule

open Pattern

variable {r s t : Rule} {p q m : Position} {n : Nat}

/-- While the first rule is matched at `p`, the second one is entered at `q`, with a
number of steps from a rule to one that it enters. No other entries matter to the
match (`outcomeWith_of_nested`). -/
inductive Nested : Nat → Rule → Position → Rule → Position → Prop
  | here {r : Rule} {p : Position} : Nested 0 r p r p
  | deeper {n : Nat} {r s t : Rule} {p q m : Position} (entry : Enters r.body p s q)
      (nested : Nested n s q t m) : Nested (n + 1) r p t m

/-- Each step of nesting takes off weight. -/
theorem Nested.weight_le (h : Nested n r p s q) :
    64 * q.rest.length + s.rank + n ≤ 64 * p.rest.length + r.rank := by
  induction h with
  | here => omega
  | @deeper n r _ _ _ _ _ entry _ ih =>
    have := entry.weight_lt (isProgressive_body r)
    have := cost_body r
    omega

theorem Nested.text (h : Nested n r p s q) : p.Reaches q := by
  induction h with
  | here => exact .refl _
  | deeper entry _ ih => exact entry.text.trans ih

/-- Behind something that is read, the offset is larger as well. -/
theorem offset_lt (ahead : p.Reaches q) (shorter : q.rest.length < p.rest.length) :
    p.offset < q.offset := by
  obtain ⟨text, stands, stop⟩ := ahead
  cases text with
  | nil =>
    rw [stands, List.nil_append] at shorter
    omega
  | cons c rest =>
    have positive := c.utf8Size_pos
    rw [stop, Position.advance, Text.byteLength_cons]
    dsimp only
    omega

/-- Every match comes to a verdict. A rule is never entered where it is still being
matched, no item of a repetition is empty, nesting is bounded by the length of the
text, and a budget of that size settles the same as any larger one. -/
theorem matching_ends (r : Rule) (p : Position) :
    ((∃ text q phrases, (r.matchAt p).1 = .matched text q phrases) ∨
        (r.matchAt p).1 = .failed) ∧
      (∀ n q, Nested (n + 1) r p r q → p.offset < q.offset) ∧
      (∀ item ∈ r.body.repeated, ∀ visible phrases q, Reads visible item p phrases q →
        q.rest.length < p.rest.length) ∧
      (∀ n s q, Nested n r p s q → n < 64 * (p.rest.length + 1)) ∧
      ∀ n ≥ 64 * (p.rest.length + 1), Pattern.run n true (.call r) p .start = r.matchAt p := by
  have settled : (r.matchAt p).1 ≠ .exhausted := matchAt_ne_exhausted r p
  refine ⟨?verdict, ?again, ?items, ?depth, ?budget⟩
  case verdict =>
    cases found : (r.matchAt p).1 with
    | matched text q phrases => exact .inl ⟨text, q, phrases, rfl⟩
    | failed => exact .inr rfl
    | exhausted => exact absurd found settled
  case again =>
    intro n q nested
    have lighter := nested.weight_le
    apply offset_lt nested.text
    omega
  case items =>
    intro item among visible phrases q reads
    exact reads.length_lt (consumes_of_mem_repeated r item among)
  case depth =>
    intro n s q nested
    have lighter := nested.weight_le
    have rank := rank_lt r
    omega
  case budget =>
    intro n enough
    exact run_mono rfl settled enough

/-- In parentheses an operand is entered again, one character behind them, and the digit
there is an item of a number. -/
theorem matching_ends_parentheses :
    (∃ q, Nested 7 .primary ⟨0, ['(', '7', ')']⟩ .primary q ∧ 0 < q.offset) ∧
      ∃ q, Reads true (.char .digit) ⟨1, ['7', ')']⟩ [] q ∧ q.rest.length < 2 := by
  constructor
  · -- No other alternative of an operand starts with a parenthesis.
    have failed (r : Rule) (h : outcome 64 true (call r) ⟨0, ['(', '7', ')']⟩ = .failed) :
        Fails true (call r) ⟨0, ['(', '7', ')']⟩ := ⟨64, h⟩
    have opened : Reads true (word "(") ⟨0, ['(', '7', ')']⟩ [] ⟨1, ['7', ')']⟩ := ⟨1, _, rfl⟩
    have gap : Reads true skipped ⟨1, ['7', ')']⟩ [] ⟨1, ['7', ')']⟩ := ⟨16, [], rfl⟩
    have inside : Enters primary.body ⟨0, ['(', '7', ')']⟩ .logicalOr ⟨1, ['7', ')']⟩ :=
      .inside (.right (failed incDec rfl)) (.inside (.right (failed newExpr rfl))
        (.inside (.right (failed number rfl)) (.inside (.right (failed string rfl))
          (.inside (.right (failed place rfl)) (.inside (.second opened)
            (.inside (.second gap) (.inside .first .here)))))))
    have down (operand operator : Rule) :
        Enters (level operand operator) ⟨1, ['7', ')']⟩ operand ⟨1, ['7', ')']⟩ :=
      .inside .first .here
    have nested : Nested 7 .primary ⟨0, ['(', '7', ')']⟩ .primary ⟨1, ['7', ')']⟩ :=
      .deeper inside (.deeper (down _ _) (.deeper (down _ _) (.deeper (down _ _)
        (.deeper (down _ _) (.deeper (down _ _) (.deeper (down _ _) .here))))))
    exact ⟨_, nested, (matching_ends .primary _).2.1 6 _ nested⟩
  · have digit : Reads true (.char .digit) ⟨1, ['7', ')']⟩ [] ⟨2, [')']⟩ := ⟨1, _, rfl⟩
    exact ⟨_, digit, (matching_ends .number ⟨1, ['7', ')']⟩).2.2.1 _ (by decide) _ _ _ digit⟩

end Rule

end SyntaxTree
