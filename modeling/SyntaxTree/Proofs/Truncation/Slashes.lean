import Mathlib.Data.List.Chain
import SyntaxTree.Proofs.Truncation.Braces

/-!
# Slashes in a derivation

No derivation has a slash directly in front of a lexeme that begins with a star. So
where a comment was left open, its mark is never taken for two operators.

This is checked for the body of every rule. The check has to know how a derivation
begins and how it ends, and which parts of it may be missing.
-/

namespace SyntaxTree

open Rule Lexeme

/-- The first lexeme is no slash that the second one makes the mark of a comment. -/
def Lexeme.Apart (t u : Lexeme) : Prop := t = ['/'] → u.head? ≠ some '*'

namespace Rule

variable {r : Rule} {t : Lexeme}

/-- A lexeme of a lexical rule is a symbol of the rule, or it begins with a word character or a
quote. -/
theorem head_of_admits (lexical : r.kind = .lexical) (h : r.admits t = true) :
    t ∈ r.symbols ∨ ∃ c ∈ t.head?, isWordChar c = true ∨ c = '"' := by
  have view : r.words ≠ [] ∨ r.symbols ≠ [] ∨ r = ident ∨ r = number ∨ r = string := by
    cases r <;> first | exact absurd lexical (by decide) | decide
  rcases view with words | symbols | rfl | rfl | rfl
  · rw [admits_of_words words, List.contains_iff_mem] at h
    obtain ⟨c, head, letter, -⟩ := head_of_words h
    exact .inr ⟨c, head, .inl letter⟩
  · rw [admits_of_symbols symbols, List.contains_iff_mem] at h
    exact .inl h
  · obtain ⟨c, head, letter, -⟩ := isName_head h
    exact .inr ⟨c, head, .inl letter⟩
  · obtain ⟨c, head, digit⟩ := number_head (eq_of_beq h)
    exact .inr ⟨c, head, .inl (isWordChar_of_isDigit digit)⟩
  · obtain ⟨rest, tail, -, same, -⟩ := string?_eq_some (eq_of_beq h)
    exact .inr ⟨'"', by rw [same]; rfl, .inr rfl⟩

/-- What the rule derives does not begin with a star. -/
def isStarless : Rule → Bool
  | mulOp | assignOp => false
  | _ => true

/-- What the rule derives does not end with a slash. -/
def isSlashless (r : Rule) : Bool := r != mulOp

theorem head_ne_star (lexical : r.kind = .lexical) (starless : r.isStarless = true)
    (h : r.admits t = true) : t.head? ≠ some '*' := by
  intro head
  rcases head_of_admits lexical h with mem | ⟨c, first, letter⟩
  · have every : ∀ t ∈ r.symbols, t.head? ≠ some '*' := by
      revert starless
      cases r <;> decide
    exact every t mem head
  · obtain rfl : c = '*' := Option.some.inj (first.symm.trans head)
    exact absurd letter (by decide)

theorem ne_slash (slashless : r.isSlashless = true) (h : r.admits t = true) : t ≠ ['/'] := by
  rintro rfl
  revert slashless h
  cases r <;> decide

end Rule

namespace Pattern

variable {a b : Pattern} {r : Rule} {ts us : List Lexeme} {trees : List Tree}

/-- What the pattern derives does not begin with a star. -/
def isStarless : Pattern → Bool
  | literal text => text.head? != some '*'
  | call r => r.isStarless
  | seq a b => a.isStarless && (a.consumes || b.isStarless)
  | choice a b => a.isStarless && b.isStarless
  | many a => a.isStarless
  | char _ | absent _ => true

/-- What the pattern derives does not end with a slash. -/
def isSlashless : Pattern → Bool
  | literal text => text != ['/']
  | call r => r.isSlashless
  | seq a b => b.isSlashless && (b.consumes || a.isSlashless)
  | choice a b => a.isSlashless && b.isSlashless
  | many a => a.isSlashless
  | char _ | absent _ => true

/-- Wherever two parts meet, no slash ends or no star begins. -/
def isApart : Pattern → Bool
  | seq a b => a.isApart && b.isApart && (a.isSlashless || b.isStarless)
  | choice a b => a.isApart && b.isApart
  | many a => a.isApart && (a.isSlashless || a.isStarless)
  | literal _ | char _ | call _ | absent _ => true

theorem isStarless_body (structured : r.kind = .plain ∨ r.isGroup = true) :
    r.body.isStarless = true := by
  cases r <;> first | rfl | exact absurd structured (by decide)

theorem isSlashless_body (structured : r.kind = .plain ∨ r.isGroup = true) :
    r.body.isSlashless = true := by
  cases r <;> first | rfl | exact absurd structured (by decide)

theorem isApart_body (r : Rule) : r.body.isApart = true := by
  cases r <;> rfl

theorem Derives.ne_nil (h : Derives a ts trees) (consumes : a.consumes = true) : ts ≠ [] := by
  induction h with
  | empty => cases consumes
  | literal | token => simp
  | node _ _ ih | group _ _ ih =>
    exact ih (consumes_body (by simpa [Pattern.consumes] using consumes))
  | seq _ _ ih ih' =>
    rw [Pattern.consumes, Bool.or_eq_true] at consumes
    rcases consumes with front | back
    · exact List.append_ne_nil_of_left_ne_nil (ih front) _
    · exact List.append_ne_nil_of_right_ne_nil _ (ih' back)
  | left _ ih =>
    rw [Pattern.consumes, Bool.and_eq_true] at consumes
    exact ih consumes.1
  | right _ ih =>
    rw [Pattern.consumes, Bool.and_eq_true] at consumes
    exact ih consumes.2
  | nil | cons | absent => cases consumes

theorem Derives.head_ne_star (h : Derives a ts trees) (starless : a.isStarless = true) :
    ∀ t ∈ ts.head?, t.head? ≠ some '*' := by
  induction h with
  | empty | nil | absent => simp
  | literal =>
    rintro t ⟨⟩
    simpa [Pattern.isStarless] using starless
  | token lexical admitted =>
    rintro t ⟨⟩
    exact Rule.head_ne_star lexical starless admitted
  | node plain _ ih => exact ih (isStarless_body (.inl plain))
  | group group _ ih => exact ih (isStarless_body (.inr group))
  | @seq _ _ ts _ _ _ first _ ih ih' =>
    rw [Pattern.isStarless, Bool.and_eq_true, Bool.or_eq_true] at starless
    intro t head
    rcases ts with _ | ⟨u, ts⟩
    · refine ih' (starless.2.resolve_left fun consumes => ?_) t head
      exact first.ne_nil consumes rfl
    · exact ih starless.1 t head
  | left _ ih =>
    rw [Pattern.isStarless, Bool.and_eq_true] at starless
    exact ih starless.1
  | right _ ih =>
    rw [Pattern.isStarless, Bool.and_eq_true] at starless
    exact ih starless.2
  | @cons _ ts _ _ _ _ _ ih ih' =>
    intro t head
    rcases ts with _ | ⟨u, ts⟩
    · exact ih' starless t head
    · exact ih starless t head

theorem Derives.getLast_ne_slash (h : Derives a ts trees) (slashless : a.isSlashless = true) :
    ts.getLast? ≠ some ['/'] := by
  induction h with
  | empty | nil | absent => simp
  | literal => simpa [Pattern.isSlashless] using slashless
  | token _ admitted => simpa using Rule.ne_slash slashless admitted
  | node plain _ ih => exact ih (isSlashless_body (.inl plain))
  | group group _ ih => exact ih (isSlashless_body (.inr group))
  | @seq _ _ _ us _ _ _ second ih ih' =>
    rw [Pattern.isSlashless, Bool.and_eq_true, Bool.or_eq_true] at slashless
    rcases us.eq_nil_or_concat with rfl | ⟨us, u, rfl⟩
    · rw [List.append_nil]
      exact ih (slashless.2.resolve_left fun consumes => second.ne_nil consumes rfl)
    · simpa using ih' slashless.1
  | left _ ih =>
    rw [Pattern.isSlashless, Bool.and_eq_true] at slashless
    exact ih slashless.1
  | right _ ih =>
    rw [Pattern.isSlashless, Bool.and_eq_true] at slashless
    exact ih slashless.2
  | @cons _ _ us _ _ _ _ ih ih' =>
    rcases us.eq_nil_or_concat with rfl | ⟨us, u, rfl⟩
    · simpa using ih slashless
    · simpa using ih' slashless

theorem apart_append (front : ts.IsChain Apart) (back : us.IsChain Apart)
    (meet : ts.getLast? ≠ some ['/'] ∨ ∀ t ∈ us.head?, t.head? ≠ some '*') :
    (ts ++ us).IsChain Apart := by
  refine front.append back fun t last u head slash => ?_
  subst slash
  exact meet.resolve_left (not_not_intro last) u head

/-- In what a checked pattern derives, no two lexemes look like the mark of a comment. -/
theorem Derives.isChain_apart (h : Derives a ts trees) (check : a.isApart = true) :
    ts.IsChain Apart := by
  induction h with
  | empty | nil | absent => exact .nil
  | literal | token => exact .singleton _
  | node _ _ ih | group _ _ ih => exact ih (isApart_body _)
  | seq first second ih ih' =>
    simp only [Pattern.isApart, Bool.and_eq_true, Bool.or_eq_true] at check
    obtain ⟨⟨front, back⟩, meet⟩ := check
    exact apart_append (ih front) (ih' back) (meet.imp first.getLast_ne_slash second.head_ne_star)
  | left _ ih =>
    rw [Pattern.isApart, Bool.and_eq_true] at check
    exact ih check.1
  | right _ ih =>
    rw [Pattern.isApart, Bool.and_eq_true] at check
    exact ih check.2
  | cons first others ih ih' =>
    have meet := check
    rw [Pattern.isApart, Bool.and_eq_true, Bool.or_eq_true] at meet
    exact apart_append (ih meet.1) (ih' check)
      (meet.2.imp first.getLast_ne_slash others.head_ne_star)

end Pattern

end SyntaxTree
