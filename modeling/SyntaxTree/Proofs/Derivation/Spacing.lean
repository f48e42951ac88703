import SyntaxTree.Proofs.Derivation.Basic

/-!
# From the matcher to derivations

Whatever the matcher reads is derived by the pattern, and the text it reads is
spelled by the derived lexemes. The argument is the same for all patterns of
the grammar, so it is made once, for patterns that pass a check, and all rules
are checked. `Explained` is what it shows of a match, and each kind of pattern
hands it on from its parts.

Three things have to be checked. Skipping comes before every lexeme, so that no
lexeme is read inside a comment. What follows a number never begins with a word
character, so that no number is the front of a word. And what follows a bare
equals sign never begins with another one.
-/

namespace SyntaxTree

open Lexeme

/-- The characters that must not follow a lexeme: behind a number those that continue a
word, behind an equals sign another one. -/
inductive Edge where
  | word
  | equals
  deriving DecidableEq, Repr

namespace Edge

def covers : Edge → Char → Bool
  | word, c => isWordChar c
  | equals, c => c == '='

def begins (edge : Edge) (cs : List Char) : Bool := cs.head?.any edge.covers

end Edge

/-- The rule never reads in front of a character of the edge. -/
def Rule.shuns : Edge → Rule → Bool
  | _, whitespace | _, comment => true
  | .word, orOp | .word, andOp | .word, eqOp | .word, relOp | .word, addOp | .word, mulOp => true
  | .equals, arrayInitializer | .equals, initList | .equals, newExpr | .equals, kwNew => true
  | _, _ => false

/-- A number may be the last lexeme that the rule reads. -/
def Rule.isOpen : Rule → Bool
  | number | logicalOr | logicalAnd | equality | relational | additive | multiplicative | primary
  | declarator | varDecl | assignment | forInitClause | forUpdateClause => true
  | _ => false

namespace Pattern

open Rule

mutual

/-- The pattern never reads in front of a character of the edge. -/
def shuns (edge : Edge) : Pattern → Bool
  | literal text => !text.isEmpty && !edge.begins text
  | char _ | many _ => false
  | call r => r.shuns edge
  | seq a b => shuns edge a || passes edge a && shuns edge b
  | choice a b => shuns edge a && shuns edge b
  | absent a => edge == .equals && a == literal ['=']

/-- Where the pattern reads in front of a character of the edge, one stands behind as well. -/
def passes (edge : Edge) : Pattern → Bool
  | literal text => text.isEmpty || !edge.begins text
  | char _ => false
  | call r => r.shuns edge
  | seq a b => shuns edge a || passes edge a && passes edge b
  | choice a b => passes edge a && passes edge b
  | many a => passes edge a
  | absent _ => true

end

/-- No number is the last lexeme that the pattern reads. -/
def isClosed : Pattern → Bool
  | literal _ | char _ | absent _ => true
  | call r => !r.isOpen
  | seq a b => isClosed b && (isClosed a || shuns .word b)
  | choice a b => isClosed a && isClosed b
  | many a => isClosed a

/-- A single character that no longer symbol begins with. -/
def isPunctuation (text : List Char) : Bool :=
  ["\x7b", "\x7d", "(", ")", "[", "]", ";", ","].any fun sign => sign.toList == text

/-- The check. A pattern is `settled` where no gap stands in front of it. -/
def isSpaced (settled : Bool) : Pattern → Bool
  | literal text => text.isEmpty || settled && isPunctuation text
  | char _ => false
  | call r => settled && (r.kind != .silent || r.isGroup)
  | seq a b =>
    if a = skipped then isSpaced true b
    else (if a = literal ['='] then settled && shuns .equals b else isSpaced settled a) &&
      isSpaced false b && (isClosed a || passes .word b)
  | choice a b => isSpaced settled a && isSpaced settled b
  | many a => isSpaced false a && (isClosed a || passes .word a)
  | absent _ => true

end Pattern

namespace Rule

open Pattern

theorem shuns_body {edge : Edge} {r : Rule} (h : r.shuns edge = true) :
    r.body.shuns edge = true := by
  cases edge <;> cases r <;> first | rfl | exact absurd h (by decide)

theorem isSpaced_body {r : Rule} (h : r.kind = .plain ∨ r.isGroup = true) :
    r.body.isSpaced true = true := by
  cases r <;> first | rfl | exact absurd h (by decide)

theorem isClosed_body {r : Rule} (h : r.kind = .plain ∨ r.isGroup = true)
    (closed : r.isOpen = false) : r.body.isClosed = true := by
  cases r <;> first | rfl | exact absurd h (by decide) | exact absurd closed (by decide)

end Rule

namespace Pattern

open Rule

variable {n : Nat} {visible settled : Bool} {edge : Edge} {pattern a b : Pattern}
variable {p m q : Position}
variable {phrases : List Phrase}

/-- What the two checks on the first character promise of a match. -/
theorem ReadsWithin.begins (edge : Edge) (h : ReadsWithin n visible pattern p phrases q) :
    (pattern.shuns edge = true → edge.begins p.rest = false) ∧
      (pattern.passes edge = true → edge.begins q.rest = false → edge.begins p.rest = false) := by
  induction n generalizing visible pattern p phrases q with
  | zero => exact absurd h ReadsWithin.not_zero
  | succ n ih =>
    induction pattern generalizing visible p phrases q with
    | literal text =>
      obtain ⟨stands, -, -⟩ := h.literal_inv
      rcases text with _ | ⟨c, text⟩
      · simp [shuns, stands]
      · simp only [shuns, passes, stands, Edge.begins, List.isEmpty_cons, List.cons_append,
          List.head?_cons, Bool.not_false, Bool.true_and, Bool.false_or, Bool.not_eq_true']
        exact ⟨id, fun free _ => free⟩
    | char among => simp [shuns, passes]
    | call r =>
      obtain ⟨_, _, inside⟩ := h.body
      have strict : r.shuns edge = true → edge.begins p.rest = false :=
        fun shuns => (ih inside).1 (shuns_body shuns)
      exact ⟨strict, fun shuns _ => strict shuns⟩
    | seq a b iha ihb =>
      obtain ⟨_, m, _, first, second, -⟩ := h.seq_inv
      obtain ⟨strict, pass⟩ := iha first
      obtain ⟨strict', pass'⟩ := ihb second
      simp only [shuns, passes, Bool.or_eq_true, Bool.and_eq_true]
      constructor
      · rintro (front | ⟨front, back⟩)
        · exact strict front
        · exact pass front (strict' back)
      · rintro (front | ⟨front, back⟩) behind
        · exact strict front
        · exact pass front (pass' back behind)
    | choice a b iha ihb =>
      simp only [shuns, passes, Bool.and_eq_true]
      rcases h.choice_inv with first | ⟨-, second⟩
      · exact ⟨fun both => (iha first).1 both.1, fun both => (iha first).2 both.1⟩
      · exact ⟨fun both => (ihb second).1 both.2, fun both => (ihb second).2 both.2⟩
    | many a iha =>
      refine ⟨by simp [shuns], fun pass behind => ?_⟩
      refine h.many_induction (R := fun p _ => edge.begins p.rest = false) behind ?_
      intro p _ m _ first _ front
      exact (iha first).2 pass front
    | absent a =>
      obtain ⟨failed, rfl, -⟩ := h.absent_inv
      refine ⟨fun check => ?_, fun _ behind => behind⟩
      simp only [shuns, Bool.and_eq_true, beq_iff_eq] at check
      obtain ⟨rfl, rfl⟩ := check
      rw [Bool.eq_false_iff]
      intro begins
      rcases stands : q.rest with _ | ⟨c, rest⟩ <;> rw [stands] at begins
      · cases begins
      · have same : c = '=' := by simpa [Edge.begins, Edge.covers] using begins
        subst same
        have reads : Reads false (literal ['=']) q [] (q.advance ['=']) := reads_literal stands
        exact reads.not_fails failed

theorem longest?_punctuation {text : List Char} (h : isPunctuation text = true)
    (rest : List Char) : longest? (text ++ rest) = some text ∧ skip (text ++ rest) = text ++ rest ∧
      touches text rest = false := by
  have single {c : Char} (letter : isWordChar c = false) (quote : c ≠ '"')
      (single : ∀ rest, symbol? (c :: rest) = some [c]) (blank : isGap c = false)
      (slash : c ≠ '/') (sign : ([c] == ['+'] || [c] == ['-']) = false) :
      longest? ([c] ++ rest) = some [c] ∧ skip ([c] ++ rest) = [c] ++ rest ∧
        touches [c] rest = false :=
    ⟨(longest?_symbol letter quote).trans (single rest), skip_cons blank slash,
      by rw [touches, sign, Bool.false_and]⟩
  have symbol (c : Char) (lone : singles.contains c = true)
      (first : ∀ pair ∈ pairs, pair.toList.head? ≠ some c) (rest : List Char) :
      symbol? (c :: rest) = some [c] := by
    rcases rest with _ | ⟨d, rest⟩
    · rw [symbol?, if_pos lone]
    · have none : (pairs.any fun pair => pair.toList == [c, d]) = false := by
        rw [List.any_eq_false]
        intro pair mem same
        exact first pair mem (by rw [eq_of_beq same]; rfl)
      rw [symbol?, none, if_neg (by simp), if_pos lone]
  simp only [isPunctuation, List.any_cons, List.any_nil, Bool.or_false, Bool.or_eq_true,
    beq_iff_eq] at h
  rcases h with rfl | rfl | rfl | rfl | rfl | rfl | rfl | rfl <;>
    exact single (by decide) (by decide) (symbol _ (by decide) (by decide)) (by decide)
      (by decide) (by decide)

theorem longest?_equals {rest : List Char} (h : Edge.equals.begins rest = false) :
    longest? (['='] ++ rest) = some ['='] ∧ skip (['='] ++ rest) = ['='] ++ rest ∧
      touches ['='] rest = false := by
  refine ⟨(longest?_symbol (by decide) (by decide)).trans ?_, skip_cons (by decide) (by decide),
    by simp [touches]⟩
  rcases rest with _ | ⟨d, rest⟩
  · rfl
  · have other : ¬ '=' = d := by
      rintro rfl
      cases h
    simp [symbol?, pairs, singles, other]

theorem touches_of_clear {r : Rule} {t : Lexeme} {rest : List Char} (admitted : r.admits t = true)
    (free : r.isClear t rest = true) : touches t rest = false := by
  by_cases sign : (t == ['+'] || t == ['-']) = true
  · have only : r = addOp := by
      simp only [Bool.or_eq_true, beq_iff_eq] at sign
      rcases sign with rfl | rfl <;> revert admitted <;> cases r <;> decide
    subst only
    rw [touches, sign, Bool.true_and]
    rcases rest with _ | ⟨d, rest⟩
    · rfl
    · simpa [isClear, barred] using free
  · rw [touches, Bool.eq_false_iff.mpr sign, Bool.false_and]

theorem isClosed_seq : (seq a b).isClosed = true ↔
    b.isClosed = true ∧ (a.isClosed = true ∨ b.shuns .word = true) := by
  rw [isClosed, Bool.and_eq_true, Bool.or_eq_true]

theorem isClosed_choice :
    (choice a b).isClosed = true ↔ a.isClosed = true ∧ b.isClosed = true := by
  rw [isClosed, Bool.and_eq_true]

/-- No word goes on at the position, or the pattern does not end with a number there. -/
def EndsAt (pattern : Pattern) (q : Position) : Prop :=
  pattern.isClosed = true ∨ Edge.word.begins q.rest = false

/-- What was read is a derivation of the pattern, and where no gap stands in front and no word
goes on behind, its lexemes spell the text. -/
def Explained (settled : Bool) (pattern : Pattern) (p : Position) (phrases : List Phrase)
    (q : Position) : Prop :=
  ∃ ts, Derives pattern ts (Phrase.trees phrases) ∧
    ((settled = true → skip p.rest = p.rest) → pattern.EndsAt q → Spells p.rest ts q.rest)

namespace Explained

theorem empty : Explained settled (literal []) p [] p :=
  ⟨[], .empty, fun _ _ => .done rfl⟩

theorem absent : Explained settled (absent a) p [] p :=
  ⟨[], .absent, fun _ _ => .done rfl⟩

/-- A sign that is the longest lexeme where it stands. -/
theorem literal {text : List Char} (nonempty : text ≠ []) (stands : p.rest = text ++ q.rest)
    (cut : longest? (text ++ q.rest) = some text ∧ skip (text ++ q.rest) = text ++ q.rest ∧
      touches text q.rest = false) : Explained settled (literal text) p [] q := by
  obtain ⟨longest, still, free⟩ := cut
  refine ⟨[text], .literal nonempty, fun _ _ => ?_⟩
  rw [stands]
  exact .single longest still free

theorem token {r : Rule} (lexical : r.kind = .lexical) (h : Reads true (call r) p phrases q) :
    Explained true (call r) p phrases q := by
  obtain ⟨t, rfl, stands, admitted, nonempty, free, longest⟩ := lexical_inv lexical h
  refine ⟨[t], ?_, fun still behind => ?_⟩
  · simpa [Phrase.trees, Phrase.tree, lexical] using Derives.token lexical admitted
  · have longest : longest? p.rest = some t := by
      refine longest fun number c head => ?_
      rcases behind with closed | behind
      · simp [isClosed, number, isOpen] at closed
      · rw [Edge.begins, Option.mem_def.mp head] at behind
        exact behind
    rw [stands] at longest still ⊢
    exact .single longest (still rfl) (touches_of_clear admitted free)

theorem node {r : Rule} (plain : r.kind = .plain) {offset : Nat} {text : List Char}
    (h : Explained true r.body p phrases q) :
    Explained true (call r) p [⟨r, offset, text, phrases⟩] q := by
  obtain ⟨ts, derived, spells⟩ := h
  refine ⟨ts, ?_, fun still behind => spells still (behind.imp_left fun closed => ?_)⟩
  · simpa [Phrase.trees, Phrase.tree, plain] using Derives.node plain derived
  · exact isClosed_body (.inl plain) (by simpa [isClosed] using closed)

theorem group {r : Rule} (group : r.isGroup = true) (h : Explained true r.body p phrases q) :
    Explained true (call r) p phrases q := by
  obtain ⟨ts, derived, spells⟩ := h
  refine ⟨ts, .group group derived, fun still behind => spells still ?_⟩
  exact behind.imp_left fun closed => isClosed_body (.inr group) (by simpa [isClosed] using closed)

/-- Behind a gap no other gap stands, so the rest of the pattern is settled. -/
theorem skipped_seq {phrases' : List Phrase} (gap : Reads true skipped p phrases m)
    (h : Explained true b m phrases' q) :
    Explained settled (seq skipped b) p (phrases ++ phrases') q := by
  obtain ⟨rfl, -, next⟩ := gap.skipped_inv
  obtain ⟨ts, derived, spells⟩ := h
  refine ⟨ts, derives_skipped_seq.mpr derived, fun _ behind => ?_⟩
  rw [next] at spells
  have closing : b.EndsAt q := behind.imp_left fun closed => (isClosed_seq.mp closed).1
  exact (spells (fun _ => skip_skip _) closing).congr (skip_skip _)

theorem seq {phrases' : List Phrase} (h : Explained settled a p phrases m)
    (h' : Explained false b m phrases' q) (between : (seq a b).EndsAt q → a.EndsAt m) :
    Explained settled (seq a b) p (phrases ++ phrases') q := by
  obtain ⟨ts, derived, spells⟩ := h
  obtain ⟨us, derived', spells'⟩ := h'
  refine ⟨ts ++ us, ?_, fun still behind => (spells still (between behind)).trans ?_⟩
  · rw [Phrase.trees_append]
    exact .seq derived derived'
  · exact spells' (by simp) (behind.imp_left fun closed => (isClosed_seq.mp closed).1)

theorem left (h : Explained settled a p phrases q) : Explained settled (choice a b) p phrases q := by
  obtain ⟨ts, derived, spells⟩ := h
  refine ⟨ts, .left derived, fun still behind => spells still ?_⟩
  exact behind.imp_left fun closed => (isClosed_choice.mp closed).1

theorem right (h : Explained settled b p phrases q) : Explained settled (choice a b) p phrases q := by
  obtain ⟨ts, derived, spells⟩ := h
  refine ⟨ts, .right derived, fun still behind => spells still ?_⟩
  exact behind.imp_left fun closed => (isClosed_choice.mp closed).2

theorem many_nil : Explained settled (many a) q [] q :=
  ⟨[], .nil, fun _ _ => .done rfl⟩

/-- A gap may stand in front of every item, so no item is settled. -/
theorem many_cons {phrases' : List Phrase} (h : Explained false a p phrases m)
    (h' : Explained false (many a) m phrases' q) (between : (many a).EndsAt q → a.EndsAt m) :
    Explained settled (many a) p (phrases ++ phrases') q := by
  obtain ⟨ts, derived, spells⟩ := h
  obtain ⟨us, derived', spells'⟩ := h'
  refine ⟨ts ++ us, ?_, fun _ behind => ?_⟩
  · rw [Phrase.trees_append]
    exact .cons derived derived'
  · exact (spells (by simp) (between behind)).trans (spells' (by simp) behind)

end Explained

/-- Where the second of two parts lets no word pass, the first part ends as the whole does. -/
theorem ReadsWithin.endsAt_front (second : ReadsWithin n visible b m phrases q)
    (between : a.isClosed = true ∨ b.passes .word = true) (h : (seq a b).EndsAt q) :
    a.EndsAt m := by
  rcases h with closed | behind
  · exact (isClosed_seq.mp closed).2.imp_right (second.begins .word).1
  · exact between.imp_right fun pass => (second.begins .word).2 pass behind

/-- What a checked pattern reads is a derivation, and where no gap stands in front and no
word goes on behind, its lexemes spell the text. -/
theorem ReadsWithin.derives (spaced : pattern.isSpaced settled = true)
    (h : ReadsWithin n true pattern p phrases q) : Explained settled pattern p phrases q := by
  induction n generalizing settled pattern p phrases q with
  | zero => exact absurd h ReadsWithin.not_zero
  | succ n ih =>
    induction pattern generalizing settled p phrases q with
    | literal text =>
      obtain ⟨stands, stop, rfl⟩ := h.literal_inv
      rcases text with _ | ⟨c, text⟩
      · rw [stop, Position.advance_nil]
        exact .empty
      · simp only [isSpaced, List.isEmpty_cons, Bool.false_or, Bool.and_eq_true] at spaced
        exact .literal (by simp) stands (longest?_punctuation spaced.2 q.rest)
    | char among => simp [isSpaced] at spaced
    | call r =>
      simp only [isSpaced, Bool.and_eq_true, Bool.or_eq_true, bne_iff_ne, ne_eq] at spaced
      obtain ⟨rfl, structured⟩ := spaced
      cases kind : r.kind with
      | lexical => exact .token kind h.reads
      | plain =>
        obtain ⟨text, children, rfl, -, -, inside⟩ := h.call_inv (by simp [kind])
        rw [kind] at inside
        exact .node kind (ih (isSpaced_body (.inl kind)) inside)
      | silent =>
        have group : r.isGroup = true := structured.resolve_left (not_not_intro kind)
        exact .group group (ih (isSpaced_body (.inr group)) (h.call_hidden_inv (.inr kind)))
    | seq a b iha ihb =>
      obtain ⟨phrases₁, m, phrases₂, first, second, rfl⟩ := h.seq_inv
      rw [isSpaced] at spaced
      split at spaced
      · rename_i gap
        subst gap
        exact .skipped_seq first.reads (ihb spaced second)
      · simp only [Bool.and_eq_true, Bool.or_eq_true] at spaced
        obtain ⟨⟨front, back⟩, between⟩ := spaced
        have first : Explained settled a p phrases₁ m := by
          split at front
          · rename_i equals
            subst equals
            rw [Bool.and_eq_true] at front
            obtain ⟨stands, -, rfl⟩ := first.literal_inv
            exact .literal (by simp) stands (longest?_equals ((second.begins .equals).1 front.2))
          · exact iha front first
        exact first.seq (ihb back second) (second.endsAt_front between)
    | choice a b iha ihb =>
      rw [isSpaced, Bool.and_eq_true] at spaced
      rcases h.choice_inv with first | ⟨-, second⟩
      · exact (iha spaced.1 first).left
      · exact (ihb spaced.2 second).right
    | many a iha =>
      rw [isSpaced, Bool.and_eq_true, Bool.or_eq_true] at spaced
      suffices every : Explained false (many a) p phrases q by
        obtain ⟨ts, derived, spells⟩ := every
        exact ⟨ts, derived, fun _ behind => spells (by simp) behind⟩
      refine h.many_induction (R := fun p phrases => Explained false (many a) p phrases q)
        .many_nil ?_
      intro p phrases₁ m phrases₂ first others rest
      refine (iha spaced.1 first).many_cons rest fun behind => ?_
      rcases behind with closed | behind
      · exact .inl closed
      · exact spaced.2.imp_right fun pass => (others.begins .word).2 pass behind
    | absent a =>
      obtain ⟨-, rfl, rfl⟩ := h.absent_inv
      exact .absent

theorem Reads.derives (spaced : pattern.isSpaced settled = true)
    (h : Reads true pattern p phrases q) : Explained settled pattern p phrases q := by
  obtain ⟨_, within⟩ := h
  exact within.derives spaced

end Pattern

end SyntaxTree
