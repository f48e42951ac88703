import SyntaxTree.Grammar.Phrase
import SyntaxTree.Proofs.Lexeme.Rules

/-!
# Derivations

Read as a context-free grammar, a pattern derives sequences of lexemes. A choice
then offers both of its branches, a repetition any number of items, looks ahead
always succeed, and what is skipped is nothing. `Derives` also gives the trees
that the rules leave, which are phrases without their places in a source.

Whatever the matcher reads is derived. The converse is a different matter: the
matcher prefers early branches and long repetitions.
-/

namespace SyntaxTree

/-- A phrase without its place. A lexical rule leaves a token, a plain rule a node. -/
inductive Tree where
  | token (rule : Rule) (text : Lexeme)
  | node (rule : Rule) (children : List Tree)

namespace Phrase

mutual

def tree : Phrase → Tree
  | ⟨rule, _, text, children⟩ =>
    if rule.kind = .lexical then .token rule text else .node rule (trees children)

def trees : List Phrase → List Tree
  | [] => []
  | p :: rest => tree p :: trees rest

end

theorem trees_eq_map (ps : List Phrase) : trees ps = ps.map tree := by
  induction ps with
  | nil => rfl
  | cons p ps ih => rw [trees, ih, List.map_cons]

theorem trees_append (ps qs : List Phrase) : trees (ps ++ qs) = trees ps ++ trees qs := by
  simp [trees_eq_map]

end Phrase

namespace Rule

/-- A silent rule that groups other rules, and no characters. -/
def isGroup : Rule → Bool
  | statement | forHeader | primary => true
  | _ => false

theorem isGroup_silent {r : Rule} (h : r.isGroup = true) : r.kind = .silent := by
  cases r <;> first | rfl | cases h

end Rule

namespace Pattern

open Rule

/-- The pattern derives the lexemes and leaves the trees. -/
inductive Derives : Pattern → List Lexeme → List Tree → Prop
  | empty : Derives (literal []) [] []
  | literal {text : List Char} (nonempty : text ≠ []) : Derives (literal text) [text] []
  | token {r : Rule} {t : Lexeme} (lexical : r.kind = .lexical) (admitted : r.admits t = true) :
      Derives (call r) [t] [.token r t]
  | node {r : Rule} {ts : List Lexeme} {trees : List Tree} (plain : r.kind = .plain)
      (body : Derives r.body ts trees) : Derives (call r) ts [.node r trees]
  | group {r : Rule} {ts : List Lexeme} {trees : List Tree} (group : r.isGroup = true)
      (body : Derives r.body ts trees) : Derives (call r) ts trees
  | seq {a b : Pattern} {ts us : List Lexeme} {trees trees' : List Tree}
      (first : Derives a ts trees) (second : Derives b us trees') :
      Derives (seq a b) (ts ++ us) (trees ++ trees')
  | left {a b : Pattern} {ts : List Lexeme} {trees : List Tree} (first : Derives a ts trees) :
      Derives (choice a b) ts trees
  | right {a b : Pattern} {ts : List Lexeme} {trees : List Tree} (second : Derives b ts trees) :
      Derives (choice a b) ts trees
  | nil {a : Pattern} : Derives (many a) [] []
  | cons {a : Pattern} {ts us : List Lexeme} {trees trees' : List Tree}
      (first : Derives a ts trees) (others : Derives (many a) us trees') :
      Derives (many a) (ts ++ us) (trees ++ trees')
  | absent {a : Pattern} : Derives (absent a) [] []

section Inversion

variable {a b : Pattern} {r : Rule} {ts : List Lexeme} {trees : List Tree}

theorem derives_literal {text : List Char} (nonempty : text ≠ []) :
    Derives (literal text) ts trees ↔ ts = [text] ∧ trees = [] := by
  constructor
  · intro h
    cases h with
    | empty => exact absurd rfl nonempty
    | literal _ => exact ⟨rfl, rfl⟩
  · rintro ⟨rfl, rfl⟩
    exact .literal nonempty

theorem derives_token (lexical : r.kind = .lexical) :
    Derives (call r) ts trees ↔ ∃ t, r.admits t = true ∧ ts = [t] ∧ trees = [.token r t] := by
  constructor
  · intro h
    cases h with
    | token _ admitted => exact ⟨_, admitted, rfl, rfl⟩
    | node plain _ => simp [lexical] at plain
    | group group _ => simp [isGroup_silent group] at lexical
  · rintro ⟨t, admitted, rfl, rfl⟩
    exact .token lexical admitted

theorem derives_node (plain : r.kind = .plain) :
    Derives (call r) ts trees ↔ ∃ children, Derives r.body ts children ∧
      trees = [.node r children] := by
  constructor
  · intro h
    cases h with
    | token lexical _ => simp [plain] at lexical
    | node _ body => exact ⟨_, body, rfl⟩
    | group group _ => simp [isGroup_silent group] at plain
  · rintro ⟨children, body, rfl⟩
    exact .node plain body

theorem derives_group (group : r.isGroup = true) :
    Derives (call r) ts trees ↔ Derives r.body ts trees := by
  constructor
  · intro h
    cases h with
    | token lexical _ => simp [isGroup_silent group] at lexical
    | node plain _ => simp [isGroup_silent group] at plain
    | group _ body => exact body
  · exact .group group

theorem derives_seq : Derives (seq a b) ts trees ↔ ∃ us vs trees₁ trees₂,
    Derives a us trees₁ ∧ Derives b vs trees₂ ∧ ts = us ++ vs ∧ trees = trees₁ ++ trees₂ := by
  constructor
  · intro h
    cases h with
    | seq first second => exact ⟨_, _, _, _, first, second, rfl, rfl⟩
  · rintro ⟨us, vs, trees₁, trees₂, first, second, rfl, rfl⟩
    exact .seq first second

theorem derives_choice :
    Derives (choice a b) ts trees ↔ Derives a ts trees ∨ Derives b ts trees := by
  constructor
  · intro h
    cases h with
    | left first => exact .inl first
    | right second => exact .inr second
  · rintro (first | second)
    · exact .left first
    · exact .right second

theorem derives_absent : Derives (absent a) ts trees ↔ ts = [] ∧ trees = [] := by
  constructor
  · intro h
    cases h
    exact ⟨rfl, rfl⟩
  · rintro ⟨rfl, rfl⟩
    exact .absent

theorem derives_empty : Derives empty ts trees ↔ ts = [] ∧ trees = [] := by
  constructor
  · intro h
    cases h with
    | empty => exact ⟨rfl, rfl⟩
    | literal nonempty => exact absurd rfl nonempty
  · rintro ⟨rfl, rfl⟩
    exact .empty

theorem derives_optional :
    Derives (optional a) ts trees ↔ Derives a ts trees ∨ ts = [] ∧ trees = [] := by
  rw [optional, derives_choice, derives_empty]

/-- The items of a repetition, each with its lexemes and its trees. -/
theorem derives_many : Derives (many a) ts trees ↔
    ∃ items : List (List Lexeme × List Tree), (∀ i ∈ items, Derives a i.1 i.2) ∧
      ts = items.flatMap Prod.fst ∧ trees = items.flatMap Prod.snd := by
  constructor
  · intro h
    generalize same : many a = p at h
    induction h with
    | nil => exact ⟨[], by simp⟩
    | cons first _ _ ih =>
      cases same
      obtain ⟨items, each, rfl, rfl⟩ := ih rfl
      exact ⟨⟨_, _⟩ :: items, List.forall_mem_cons.mpr ⟨first, each⟩, rfl, rfl⟩
    | _ => cases same
  · rintro ⟨items, each, rfl, rfl⟩
    induction items with
    | nil => exact .nil
    | cons item items ih =>
      have first := each item (by simp)
      exact .cons first (ih fun i mem => each i (by simp [mem]))

theorem not_derives_blank {r : Rule} (silent : r.kind = .silent) (blank : r.isGroup = false) :
    ¬ Derives (call r) ts trees := by
  intro h
  cases h with
  | token lexical _ => simp [silent] at lexical
  | node plain _ => simp [silent] at plain
  | group group _ => simp [blank] at group

theorem derives_many_blank {r : Rule} (silent : r.kind = .silent) (blank : r.isGroup = false) :
    Derives (many (call r)) ts trees ↔ ts = [] ∧ trees = [] := by
  constructor
  · intro h
    cases h with
    | nil => exact ⟨rfl, rfl⟩
    | cons first _ => exact absurd first (not_derives_blank silent blank)
  · rintro ⟨rfl, rfl⟩
    exact .nil

/-- What is skipped derives nothing. -/
theorem derives_skipped : Derives skipped ts trees ↔ ts = [] ∧ trees = [] := by
  constructor
  · intro h
    obtain ⟨us, vs, trees₁, trees₂, blanks, comments, rfl, rfl⟩ := derives_seq.mp h
    obtain ⟨rfl, rfl⟩ := (derives_many_blank rfl rfl).mp blanks
    cases comments with
    | nil => exact ⟨rfl, rfl⟩
    | cons first _ =>
      obtain ⟨_, _, _, _, comment, -⟩ := derives_seq.mp first
      exact absurd comment (not_derives_blank rfl rfl)
  · rintro ⟨rfl, rfl⟩
    exact .seq .nil .nil

theorem derives_skipped_seq : Derives (seq skipped a) ts trees ↔ Derives a ts trees := by
  constructor
  · intro h
    obtain ⟨us, vs, trees₁, trees₂, gap, rest, rfl, rfl⟩ := derives_seq.mp h
    obtain ⟨rfl, rfl⟩ := derives_skipped.mp gap
    exact rest
  · intro h
    exact .seq (derives_skipped.mpr ⟨rfl, rfl⟩) h

/-- Each of the items derives its share, one after the other. -/
def DerivesEach : List Pattern → List Lexeme → List Tree → Prop
  | [], ts, trees => ts = [] ∧ trees = []
  | a :: rest, ts, trees => ∃ us vs trees₁ trees₂,
    Derives a us trees₁ ∧ DerivesEach rest vs trees₂ ∧ ts = us ++ vs ∧ trees = trees₁ ++ trees₂

theorem derives_spaced {items : List Pattern} :
    Derives (spaced items) ts trees ↔ DerivesEach items ts trees := by
  induction items generalizing ts trees with
  | nil => exact derives_empty
  | cons a items ih =>
    cases items with
    | nil =>
      constructor
      · intro h
        exact ⟨ts, [], trees, [], h, ⟨rfl, rfl⟩, by simp, by simp⟩
      · rintro ⟨us, vs, trees₁, trees₂, h, ⟨rfl, rfl⟩, rfl, rfl⟩
        rwa [List.append_nil, List.append_nil]
    | cons next rest =>
      rw [spaced, derives_seq, DerivesEach]
      simp only [derives_skipped_seq, ih]

section Each

variable {rest : List Pattern}

theorem each_word {text : String} (nonempty : text.toList ≠ []) :
    DerivesEach (word text :: rest) ts trees ↔
      ∃ us, DerivesEach rest us trees ∧ ts = text.toList :: us := by
  constructor
  · rintro ⟨us, vs, trees₁, trees₂, first, others, rfl, rfl⟩
    obtain ⟨rfl, rfl⟩ := (derives_literal nonempty).mp first
    exact ⟨vs, others, rfl⟩
  · rintro ⟨us, others, rfl⟩
    exact ⟨_, _, _, _, .literal nonempty, others, rfl, rfl⟩

theorem each_absent : DerivesEach (absent a :: rest) ts trees ↔ DerivesEach rest ts trees := by
  constructor
  · rintro ⟨us, vs, trees₁, trees₂, first, others, rfl, rfl⟩
    obtain ⟨rfl, rfl⟩ := derives_absent.mp first
    exact others
  · intro others
    exact ⟨_, _, _, _, .absent, others, rfl, rfl⟩

theorem each_token (lexical : r.kind = .lexical) :
    DerivesEach (call r :: rest) ts trees ↔ ∃ t us trees', r.admits t = true ∧
      DerivesEach rest us trees' ∧ ts = t :: us ∧ trees = .token r t :: trees' := by
  constructor
  · rintro ⟨us, vs, trees₁, trees₂, first, others, rfl, rfl⟩
    obtain ⟨t, admitted, rfl, rfl⟩ := (derives_token lexical).mp first
    exact ⟨t, vs, trees₂, admitted, others, rfl, rfl⟩
  · rintro ⟨t, us, trees', admitted, others, rfl, rfl⟩
    exact ⟨_, _, _, _, .token lexical admitted, others, rfl, rfl⟩

theorem each_node (plain : r.kind = .plain) :
    DerivesEach (call r :: rest) ts trees ↔ ∃ us vs children trees',
      Derives r.body us children ∧ DerivesEach rest vs trees' ∧ ts = us ++ vs ∧
        trees = .node r children :: trees' := by
  constructor
  · rintro ⟨us, vs, trees₁, trees₂, first, others, rfl, rfl⟩
    obtain ⟨children, body, rfl⟩ := (derives_node plain).mp first
    exact ⟨us, vs, children, trees₂, body, others, rfl, rfl⟩
  · rintro ⟨us, vs, children, trees', body, others, rfl, rfl⟩
    exact ⟨_, _, _, _, .node plain body, others, rfl, rfl⟩

end Each

theorem derives_spacedMany : Derives (spacedMany a) ts trees ↔
    ∃ items : List (List Lexeme × List Tree), (∀ i ∈ items, Derives a i.1 i.2) ∧
      ts = items.flatMap Prod.fst ∧ trees = items.flatMap Prod.snd := by
  rw [spacedMany, derives_optional]
  constructor
  · rintro (h | ⟨rfl, rfl⟩)
    · obtain ⟨us, vs, trees₁, trees₂, first, others, rfl, rfl⟩ := derives_seq.mp h
      obtain ⟨items, each, rfl, rfl⟩ := derives_many.mp others
      simp only [derives_skipped_seq] at each
      exact ⟨⟨us, trees₁⟩ :: items, List.forall_mem_cons.mpr ⟨first, each⟩, rfl, rfl⟩
    · exact ⟨[], by simp⟩
  · rintro ⟨items, each, rfl, rfl⟩
    rcases items with _ | ⟨item, items⟩
    · exact .inr ⟨rfl, rfl⟩
    · refine .inl (derives_seq.mpr ⟨_, _, _, _, each item (by simp), derives_many.mpr
        ⟨items, ?_, rfl, rfl⟩, rfl, rfl⟩)
      intro i mem
      exact derives_skipped_seq.mpr (each i (by simp [mem]))

end Inversion

end Pattern

end SyntaxTree
