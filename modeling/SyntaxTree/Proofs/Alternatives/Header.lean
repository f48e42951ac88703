import SyntaxTree.Proofs.Derivation.Spacing
import SyntaxTree.Proofs.Soundness.Clause

/-!
# Loop headers by their signs

A header has three clauses, of which each may be absent, and the grammar has a rule
for each of the eight choices. Which of them can match is written in the text: a
clause is absent exactly if the sign that ends it is the next thing behind the sign
in front of it.

For the second and the third clause this needs the place where the clauses before
end. No lexeme of a clause is a semicolon, although a string literal may hold some,
so the clauses end at the first two semicolons among the lexemes of the text.
-/

namespace SyntaxTree

open Pattern Rule Lexeme

namespace Lexeme

variable {s s' rest cs : List Char} {t : Lexeme} {ts us : List Lexeme} {c : Char}

/-- The text behind the first lexeme that is a semicolon. -/
def behindSeparator? (cs : List Char) : Option (List Char) :=
  match _h : longest? (skip cs) with
  | none => none
  | some t =>
    if t = [';'] then some ((skip cs).drop t.length)
    else behindSeparator? ((skip cs).drop t.length)
termination_by cs.length
decreasing_by
  obtain ⟨front, nonempty⟩ := longest?_isPrefix _h
  have positive : 0 < t.length := List.length_pos_iff.mpr nonempty
  have inside := front.length_le
  have shorter := length_skip_le cs
  simp only [List.length_drop]
  omega

theorem behindSeparator?_of_longest (longest : longest? (skip cs) = some t)
    (split : skip cs = t ++ rest) :
    behindSeparator? cs = if t = [';'] then some rest else behindSeparator? rest := by
  have behind : (skip cs).drop t.length = rest := by
    rw [split, List.drop_left]
  rw [behindSeparator?]
  split
  · rename_i missing
    rw [longest] at missing
    cases missing
  · rename_i found
    rw [longest] at found
    cases found
    rw [behind]

/-- Where no semicolon is among the lexemes in front, the text behind the separator is what
the lexemes behind it spell. -/
theorem Spells.behindSeparator? (h : Spells s (ts ++ [';'] :: us) s') (plain : [';'] ∉ ts) :
    ∃ rest, behindSeparator? s = some rest ∧ Spells rest us s' := by
  induction ts generalizing s with
  | nil =>
    cases h with
    | @more _ rest _ _ _ longest split free others =>
      refine ⟨rest, ?_, others⟩
      rw [behindSeparator?_of_longest longest split, if_pos rfl]
  | cons t ts ih =>
    obtain ⟨other, plain⟩ := not_or.mp (mt List.mem_cons.mpr plain)
    cases h with
    | more longest split free others =>
      obtain ⟨rest, found, behind⟩ := ih others plain
      refine ⟨rest, ?_, behind⟩
      rw [behindSeparator?_of_longest longest split, if_neg (Ne.symm other), found]

/-- A punctuation mark stands behind a gap exactly if it is the next lexeme. -/
theorem Spells.head?_eq_iff (h : Spells s (t :: ts) s') (mark : isPunctuation [c] = true) :
    (skip s).head? = some c ↔ t = [c] := by
  cases h with
  | more longest split free others =>
    constructor
    · intro head
      obtain ⟨cs, stands⟩ := List.head?_eq_some_iff.mp head
      obtain ⟨longest', -, -⟩ := longest?_punctuation mark cs
      rw [stands] at longest
      exact Option.some.inj (longest.symm.trans longest')
    · rintro rfl
      rw [split]
      rfl

end Lexeme

/-! ## The lexemes of a clause -/

/-- The rules that derive parts of a clause, or nothing. No lexeme of theirs is a semicolon. -/
def Rule.isInline : Rule → Bool
  | whitespace | comment
  | forInitClause | forUpdateClause | varDecl | declarator | assignment
  | logicalOr | logicalAnd | equality | relational | additive | multiplicative
  | primary | incDec | prefixIncDec | postfixIncDec | place | index | newExpr | dims | dim => true
  | r => r.kind == .lexical

namespace Pattern

variable {pattern : Pattern} {r : Rule} {ts : List Lexeme} {trees : List Tree}

/-- All rules of the pattern are inline, and it has no semicolon of its own. -/
def isInline : Pattern → Bool
  | literal text => text != [';']
  | char _ | absent _ => true
  | call r => r.isInline
  | seq a b | choice a b => isInline a && isInline b
  | many a => isInline a

/-- An inline pattern that derives a lexeme, of which the first one is no closing parenthesis. -/
def opens : Pattern → Bool
  | literal text => !text.isEmpty && text != [')']
  | call _ => true
  | seq a _ => opens a
  | choice a b => opens a && opens b
  | char _ | many _ | absent _ => false

theorem inline_body (inline : r.isInline = true) (structured : r.kind = .plain ∨ r.isGroup = true) :
    r.body.isInline = true ∧ r.body.opens = true := by
  revert inline structured
  cases r <;> decide

theorem ne_mark_of_admits {t : Lexeme} (admitted : r.admits t = true) : t ≠ [';'] ∧ t ≠ [')'] := by
  constructor <;> rintro rfl <;> revert admitted <;> cases r <;> decide

theorem Derives.inline (h : Derives pattern ts trees) (inline : pattern.isInline = true) :
    [';'] ∉ ts ∧ (pattern.opens = true → ∃ t us, ts = t :: us ∧ t ≠ [')']) := by
  induction h with
  | empty => exact ⟨List.not_mem_nil, fun opens => (by cases opens)⟩
  | @literal text nonempty =>
    simp only [isInline, bne_iff_ne] at inline
    refine ⟨fun mem => inline (List.mem_singleton.mp mem).symm, fun opens => ⟨text, [], rfl, ?_⟩⟩
    rw [Pattern.opens, Bool.and_eq_true, bne_iff_ne] at opens
    exact opens.2
  | @token r t lexical admitted =>
    obtain ⟨semicolon, parenthesis⟩ := ne_mark_of_admits admitted
    exact ⟨fun mem => semicolon (List.mem_singleton.mp mem).symm, fun _ => ⟨t, [], rfl, parenthesis⟩⟩
  | node plain _ ih =>
    obtain ⟨body, front⟩ := inline_body inline (.inl plain)
    exact ⟨(ih body).1, fun _ => (ih body).2 front⟩
  | group group _ ih =>
    obtain ⟨body, front⟩ := inline_body inline (.inr group)
    exact ⟨(ih body).1, fun _ => (ih body).2 front⟩
  | seq _ _ ih ih' =>
    rw [isInline, Bool.and_eq_true] at inline
    obtain ⟨plain, front⟩ := ih inline.1
    obtain ⟨plain', -⟩ := ih' inline.2
    refine ⟨fun mem => (List.mem_append.mp mem).elim plain plain', fun opens => ?_⟩
    obtain ⟨t, us, rfl, other⟩ := front opens
    exact ⟨t, _, rfl, other⟩
  | left _ ih =>
    rw [isInline, Bool.and_eq_true] at inline
    refine ⟨(ih inline.1).1, fun opens => ?_⟩
    rw [Pattern.opens, Bool.and_eq_true] at opens
    exact (ih inline.1).2 opens.1
  | right _ ih =>
    rw [isInline, Bool.and_eq_true] at inline
    refine ⟨(ih inline.2).1, fun opens => ?_⟩
    rw [Pattern.opens, Bool.and_eq_true] at opens
    exact (ih inline.2).2 opens.2
  | nil => exact ⟨List.not_mem_nil, fun opens => (by cases opens)⟩
  | cons _ _ ih ih' =>
    refine ⟨fun mem => ?_, fun opens => (by cases opens)⟩
    exact (List.mem_append.mp mem).elim (ih inline).1 (ih' inline).1
  | absent => exact ⟨List.not_mem_nil, fun opens => (by cases opens)⟩

end Pattern

/-! ## Headers -/

/-- The lexemes of a clause that may be absent. -/
structure ClauseLexemes (there : Bool) (ts : List Lexeme) : Prop where
  inline : [';'] ∉ ts
  absent : there = false → ts = []
  present : there = true → ∃ t us, ts = t :: us ∧ t ≠ [')']

variable {ts us : List Lexeme} {trees : List Tree} {r : Rule} {p q : Position}
variable {phrases : List Phrase}

theorem each_clause {there : Bool} {clause : Rule} {rest : List Pattern}
    (inline : clause.isInline = true)
    (h : DerivesEach ((if there then [call clause] else []) ++ rest) ts trees) :
    ∃ us vs trees', DerivesEach rest vs trees' ∧ ts = us ++ vs ∧ ClauseLexemes there us := by
  cases there with
  | false => exact ⟨[], ts, trees, h, rfl, List.not_mem_nil, fun _ => rfl, nofun⟩
  | true =>
    obtain ⟨us, vs, _, trees', derived, others, rfl, -⟩ := h
    obtain ⟨plain, opens⟩ := derived.inline inline
    exact ⟨us, vs, trees', others, rfl, plain, nofun, fun _ => opens rfl⟩

/-- The lexemes of a header: three clauses with the signs around them. -/
theorem header_lexemes {init condition update : Bool}
    (h : Derives (Tree.header init condition update).body ts trees) :
    ∃ us vs ws, ts = ['('] :: (us ++ [';'] :: (vs ++ [';'] :: (ws ++ [[')']]))) ∧
      ClauseLexemes init us ∧ ClauseLexemes condition vs ∧ ClauseLexemes update ws := by
  rw [Tree.body_header] at h
  have parts : DerivesEach (Tree.headerPattern init condition update) ts trees :=
    derives_spaced.mp h
  obtain ⟨_, first, rfl⟩ := (each_word (by decide)).mp parts
  obtain ⟨us, _, _, after, rfl, hi⟩ := each_clause rfl first
  obtain ⟨_, second, rfl⟩ := (each_word (by decide)).mp after
  obtain ⟨vs, _, _, behind, rfl, hc⟩ := each_clause rfl second
  obtain ⟨_, third, rfl⟩ := (each_word (by decide)).mp behind
  obtain ⟨ws, _, _, close, rfl, hu⟩ := each_clause rfl third
  obtain ⟨_, ⟨rfl, rfl⟩, rfl⟩ := (each_word (by decide)).mp close
  exact ⟨us, vs, ws, rfl, hi, hc, hu⟩

/-- A clause is absent exactly if the sign that ends it stands where it might begin. -/
theorem ClauseLexemes.absent_iff {there : Bool} {s s' : List Char} {c : Char}
    (h : ClauseLexemes there us) (spells : Spells s (us ++ [c] :: ts) s')
    (ends : c = ';' ∨ c = ')') : there = false ↔ (skip s).head? = some c := by
  have mark : isPunctuation [c] = true := by
    rcases ends with rfl | rfl <;> decide
  cases there with
  | false =>
    obtain rfl := h.absent rfl
    exact ⟨fun _ => (spells.head?_eq_iff mark).mpr rfl, fun _ => rfl⟩
  | true =>
    obtain ⟨t, us, rfl, other⟩ := h.present rfl
    refine ⟨nofun, fun head => ?_⟩
    obtain rfl : t = [c] := (spells.head?_eq_iff mark).mp head
    rcases ends with rfl | rfl
    · exact absurd List.mem_cons_self h.inline
    · exact absurd rfl other

namespace Rule

/-- The eight rules for headers, in the order of the grammar. -/
def headers : List Rule :=
  [forInitCondUpdate, forInitCond, forInitUpdate, forCondUpdate, forInit, forCond, forUpdate, forEmpty]

theorem forHeader_body : forHeader.body = oneOf (headers.map call) := rfl

theorem exists_header (mem : r ∈ headers) : ∃ init condition update,
    r = Tree.header init condition update := by
  revert r
  decide

/-- A header that matches leaves one phrase, which is read as clauses, and it is the rule for
the clauses that are there. Which clauses these are is seen at the signs in the text. -/
theorem header_layout (mem : r ∈ headers) (h : Reads true (call r) p phrases q) :
    ∃ phrase clauses s a b, phrases = [phrase] ∧ ForClauses.ofPhrase phrase = .ok clauses ∧
      r = Tree.header clauses.init.isSome clauses.condition.isSome clauses.update.isSome ∧
      p.rest = '(' :: s ∧ behindSeparator? s = some a ∧ behindSeparator? a = some b ∧
      (clauses.init = none ↔ (skip s).head? = some ';') ∧
      (clauses.condition = none ↔ (skip a).head? = some ';') ∧
      (clauses.update = none ↔ (skip b).head? = some ')') := by
  obtain ⟨i, c, u, rfl⟩ := exists_header mem
  have plain := Tree.header_plain i c u
  obtain ⟨text, children, rfl, -, -, inside⟩ := h.call_inv (by simp [plain])
  rw [plain] at inside
  obtain ⟨ts, derived, spells⟩ := inside.derives (isSpaced_body (.inl plain))
  obtain ⟨clauses, gives, -, -, hasInit, hasCondition, hasUpdate⟩ := header_clauses derived
  obtain ⟨us, vs, ws, rfl, hi, hc, hu⟩ := header_lexemes derived
  -- A header begins with its parenthesis, so no gap stands in front of it.
  have still : skip p.rest = p.rest := by
    obtain ⟨others, same⟩ : ∃ others, (Tree.header i c u).body = seq (Pattern.word "(") others := by
      cases i <;> cases c <;> cases u <;> exact ⟨_, rfl⟩
    rw [same] at inside
    obtain ⟨_, m, _, opening, -, -⟩ := inside.seq_inv
    obtain ⟨stands, -, -⟩ := opening.literal_inv
    rw [stands]
    exact skip_cons (by decide) (by decide)
  have closed : (Tree.header i c u).body.isClosed = true := by
    cases i <;> cases c <;> cases u <;> decide
  have none_iff {α : Type} (x : Option α) : x = none ↔ x.isSome = false := by
    cases x <;> simp
  obtain ⟨s, stands, -, -, first⟩ := (spells (fun _ => still) (.inl closed)).cons_inv still
  obtain ⟨a, found, second⟩ := first.behindSeparator? hi.inline
  obtain ⟨b, found', third⟩ := second.behindSeparator? hc.inline
  refine ⟨_, clauses, s, a, b, rfl, gives _ ?_, ?_, stands, found, found', ?_, ?_, ?_⟩
  · simp [Phrase.tree, plain]
  · rw [hasInit, hasCondition, hasUpdate]
  · rw [← hi.absent_iff first (.inl rfl), ← hasInit, none_iff]
  · rw [← hc.absent_iff second (.inl rfl), ← hasCondition, none_iff]
  · rw [← hu.absent_iff third (.inr rfl), ← hasUpdate, none_iff]

/-- No two headers match at the same place. -/
theorem header_unique {r' : Rule} {q' : Position} {phrases' : List Phrase} (mem : r ∈ headers)
    (mem' : r' ∈ headers) (h : Reads true (call r) p phrases q)
    (h' : Reads true (call r') p phrases' q') : r = r' := by
  obtain ⟨_, clauses, s, a, b, -, -, rfl, stands, found, next, init, condition, update⟩ :=
    header_layout mem h
  obtain ⟨_, clauses', s', a', b', -, -, rfl, stands', found', next', init', condition', update'⟩ :=
    header_layout mem' h'
  obtain rfl : s = s' := List.tail_eq_of_cons_eq (stands.symm.trans stands')
  obtain rfl : a = a' := Option.some.inj (found.symm.trans found')
  obtain rfl : b = b' := Option.some.inj (next.symm.trans next')
  have same {α : Type} {x x' : Option α} {sign : Prop} (h : x = none ↔ sign)
      (h' : x' = none ↔ sign) : x.isSome = x'.isSome := by
    have both : x = none ↔ x' = none := h.trans h'.symm
    cases x <;> cases x' <;> simp at both ⊢
  rw [same init init', same condition condition', same update update']

end Rule

end SyntaxTree
