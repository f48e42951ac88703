import SyntaxTree.Proofs.Derivation.Spacing
import SyntaxTree.Proofs.Matching.Budget
import SyntaxTree.Proofs.Soundness.Class
import SyntaxTree.Source

/-!
# The grammar and the readers agree

A construct is read from the phrases of some rules. Whatever such a rule matches,
the reader of its construct takes: it finds the parts it looks for, no others,
and knows every operator. So a source that does not become a program has been
rejected by the grammar.
-/

namespace SyntaxTree

open Pattern Rule

/-- The constructs that have a reader of their own. -/
inductive Construct where
  | program | classDecl | methodDecl | modifier | block | statement | forClauses
  | varDecl | arrayDecl | arrayInit | assignment | expr
  deriving DecidableEq, Repr

namespace Construct

/-- What a construct is read as. -/
def Value : Construct → Type
  | program => Program
  | classDecl => ClassDecl
  | methodDecl => MethodDecl
  | modifier => Modifier
  | block => Block
  | statement => Stmt
  | forClauses => ForClauses
  | varDecl => VarDecl
  | arrayDecl => ArrayDecl
  | arrayInit => ArrayInit
  | assignment => Assignment
  | expr => Expr

/-- The reader of a construct. -/
def read : (c : Construct) → Phrase → TallyReader c.Value
  | program, p => Program.ofPhrase p
  | classDecl, p => ClassDecl.ofPhrase p
  | methodDecl, p => MethodDecl.ofPhrase p
  | modifier, p => liftM (Modifier.ofPhrase p)
  | block, p => Block.ofPhrase p
  | statement, p => Stmt.ofPhrase p
  | forClauses, p => liftM (ForClauses.ofPhrase p)
  | varDecl, p => liftM (VarDecl.ofPhrase p)
  | arrayDecl, p => liftM (ArrayDecl.ofPhrase p)
  | arrayInit, p => liftM (ArrayInit.ofPhrase p)
  | assignment, p => liftM (Assignment.ofPhrase p)
  | expr, p => liftM (Expr.ofPhrase p)

/-- A construct as a source can have it. A modifier is one whatever its words are. -/
def isWellFormed : (c : Construct) → c.Value → Bool
  | program, x => Program.isWellFormed x
  | classDecl, x => ClassDecl.isWellFormed x
  | methodDecl, x => MethodDecl.isWellFormed x
  | modifier, _ => true
  | block, x => Block.isWellFormed x
  | statement, x => Stmt.isWellFormed x
  | forClauses, x => ForClauses.isWellFormed x
  | varDecl, x => VarDecl.isWellFormed x
  | arrayDecl, x => ArrayDecl.isWellFormed x
  | arrayInit, x => ArrayInit.isWellFormed x
  | assignment, x => Assignment.isWellFormed x
  | expr, x => Expr.isWellFormed x

/-- The rules whose phrases are read as a construct. A silent rule leaves the phrase of one of
the others. -/
def rules : Construct → List Rule
  | program => [.program]
  | classDecl => [.classDecl]
  | methodDecl => [.methodDecl]
  | modifier => [.modifier]
  | block => [.block]
  | statement => [.statement, .ifElseStmt, .ifStmt, .declarationStmt, .initializationStmt,
      .expressionStmt, .forStmt]
  | forClauses => [.forHeader, .forEmpty, .forInit, .forCond, .forUpdate, .forInitCond,
      .forInitUpdate, .forCondUpdate, .forInitCondUpdate]
  | varDecl => [.varDecl]
  | arrayDecl => [.arrayDecl]
  | arrayInit => [.arrayInit]
  | assignment => [.assignment]
  | expr => [.logicalOr, .logicalAnd, .equality, .relational, .additive, .multiplicative,
      .primary, .number, .ident, .string, .place, .incDec, .newExpr]

end Construct

variable {r : Rule} {ts : List Lexeme} {trees : List Tree}

theorem Tree.Gives.along {α : Type} {read : Phrase → Except ShapeError α} {t : Tree} {x : α}
    (h : t.Gives read x) : t.GivesAlong (fun p => liftM (read p)) x :=
  fun p tree => TallyReader.returns_lift (h p tree)

theorem gives_statement (mem : r ∈ Construct.rules .statement) (h : Derives (call r) ts trees) :
    ∃ t, trees = [t] ∧ ∃ stmt, t.GivesAlong Stmt.ofPhrase stmt ∧ stmt.isWellFormed = true := by
  -- A statement of one of the six kinds is one of the rule for all.
  have any : Derives (call statement) ts trees := by
    refine (derives_group rfl).mpr ?_
    show Derives (oneOf _) ts trees
    simp only [Construct.rules, List.mem_cons, List.not_mem_nil, or_false] at mem
    simp only [oneOf, derives_choice]
    rcases mem with rfl | rfl | rfl | rfl | rfl | rfl | rfl
    · have alternatives : Derives (oneOf _) ts trees := (derives_group rfl).mp h
      simpa only [oneOf, derives_choice] using alternatives
    all_goals simp only [h, true_or, or_true]
  obtain ⟨t, rfl, stmt, gives, sound, -⟩ := statement_spells any
  exact ⟨t, rfl, stmt, gives, sound⟩

theorem gives_forClauses (mem : r ∈ Construct.rules .forClauses) (h : Derives (call r) ts trees) :
    ∃ t, trees = [t] ∧ ∃ clauses, t.Gives ForClauses.ofPhrase clauses ∧
      clauses.isWellFormed = true := by
  have any : Derives (call forHeader) ts trees := by
    refine (derives_group rfl).mpr ?_
    show Derives (oneOf _) ts trees
    simp only [Construct.rules, List.mem_cons, List.not_mem_nil, or_false] at mem
    simp only [oneOf, derives_choice]
    rcases mem with rfl | rfl | rfl | rfl | rfl | rfl | rfl | rfl | rfl
    · have alternatives : Derives (oneOf _) ts trees := (derives_group rfl).mp h
      simpa only [oneOf, derives_choice] using alternatives
    all_goals simp only [h, true_or, or_true]
  obtain ⟨t, rfl, -, clauses, gives, -, sound⟩ := spells_forHeader any
  exact ⟨t, rfl, clauses, gives, sound⟩

theorem gives_expr (mem : r ∈ Construct.rules .expr) (h : Derives (call r) ts trees) :
    ∃ t, trees = [t] ∧ ∃ e, t.Gives Expr.ofPhrase e ∧ e.isWellFormed = true := by
  have level (k : Nat) (le : k ≤ 6) (h : Derives (call (rung k)) ts trees) :
      ∃ t, trees = [t] ∧ ∃ e, t.Gives Expr.ofPhrase e ∧ e.isWellFormed = true := by
    obtain ⟨t, rfl, -, e, gives, -, sound⟩ := spells_rung le h
    exact ⟨t, rfl, e, gives, sound⟩
  simp only [Construct.rules, List.mem_cons, List.not_mem_nil, or_false] at mem
  rcases mem with rfl | rfl | rfl | rfl | rfl | rfl | rfl | rfl | rfl | rfl | rfl | rfl | rfl
  · exact level 0 (by decide) h
  · exact level 1 (by decide) h
  · exact level 2 (by decide) h
  · exact level 3 (by decide) h
  · exact level 4 (by decide) h
  · exact level 5 (by decide) h
  · exact level 6 (by decide) h
  · obtain ⟨w, admitted, -, rfl⟩ := (derives_token rfl).mp h
    exact ⟨_, rfl, _, Tree.gives_number, number_of_admits admitted⟩
  · obtain ⟨w, admitted, -, rfl⟩ := (derives_token rfl).mp h
    exact ⟨_, rfl, _, Tree.gives_ident, name_of_admits admitted⟩
  · obtain ⟨w, admitted, -, rfl⟩ := (derives_token rfl).mp h
    exact ⟨_, rfl, _, Tree.gives_str, string_of_admits admitted⟩
  · obtain ⟨children, body, rfl⟩ := (derives_node rfl).mp h
    obtain ⟨e, gives, -, sound⟩ := place_spells body
    exact ⟨_, rfl, e, Tree.gives_expr_of_place gives, sound⟩
  · obtain ⟨children, body, rfl⟩ := (derives_node rfl).mp h
    obtain ⟨step, gives, -, sound⟩ := incDec_spells body
    exact ⟨_, rfl, _, Tree.gives_expr_of_incDec gives, sound⟩
  · obtain ⟨children, body, rfl⟩ := (derives_node rfl).mp h
    obtain ⟨⟨type, dims⟩, gives, -, sound⟩ := spells_new body
    exact ⟨_, rfl, _, Tree.gives_expr_of_new gives, sound⟩

/-- What a rule of a construct derives is one tree, and the reader of the construct takes it. It is
read as something well-formed. -/
theorem Construct.gives {c : Construct} (mem : r ∈ c.rules) (h : Derives (call r) ts trees) :
    ∃ t, trees = [t] ∧ ∃ x, t.GivesAlong c.read x ∧ c.isWellFormed x = true := by
  cases c with
  | program =>
    obtain rfl := List.mem_singleton.mp mem
    obtain ⟨children, body, rfl⟩ := (derives_node rfl).mp h
    obtain ⟨x, gives, sound, -⟩ := spells_program body
    exact ⟨_, rfl, x, gives, sound⟩
  | classDecl =>
    obtain rfl := List.mem_singleton.mp mem
    obtain ⟨children, body, rfl⟩ := (derives_node rfl).mp h
    obtain ⟨x, gives, sound, -⟩ := spells_classDecl body
    exact ⟨_, rfl, x, gives, sound⟩
  | methodDecl =>
    obtain rfl := List.mem_singleton.mp mem
    obtain ⟨children, body, rfl⟩ := (derives_node rfl).mp h
    obtain ⟨x, gives, sound, -⟩ := spells_methodDecl body
    exact ⟨_, rfl, x, gives, sound⟩
  | modifier =>
    obtain rfl := List.mem_singleton.mp mem
    obtain ⟨children, body, rfl⟩ := (derives_node rfl).mp h
    obtain ⟨x, gives, -⟩ := spells_modifier body
    exact ⟨_, rfl, x, gives.along, rfl⟩
  | block =>
    obtain rfl := List.mem_singleton.mp mem
    obtain ⟨children, body, rfl⟩ := (derives_node rfl).mp h
    obtain ⟨x, _, gives, sound, -⟩ := block_spells body
    exact ⟨_, rfl, x, gives, sound⟩
  | statement => exact gives_statement mem h
  | forClauses =>
    obtain ⟨t, single, x, gives, sound⟩ := gives_forClauses mem h
    exact ⟨t, single, x, gives.along, sound⟩
  | varDecl =>
    obtain rfl := List.mem_singleton.mp mem
    obtain ⟨children, body, rfl⟩ := (derives_node rfl).mp h
    obtain ⟨x, gives, -, sound⟩ := spells_varDecl body
    exact ⟨_, rfl, x, gives.along, sound⟩
  | arrayDecl =>
    obtain rfl := List.mem_singleton.mp mem
    obtain ⟨children, body, rfl⟩ := (derives_node rfl).mp h
    obtain ⟨x, gives, -, sound⟩ := spells_arrayDecl body
    exact ⟨_, rfl, x, gives.along, sound⟩
  | arrayInit =>
    obtain rfl := List.mem_singleton.mp mem
    obtain ⟨children, body, rfl⟩ := (derives_node rfl).mp h
    obtain ⟨x, gives, -, sound⟩ := spells_arrayInit body
    exact ⟨_, rfl, x, gives.along, sound⟩
  | assignment =>
    obtain rfl := List.mem_singleton.mp mem
    obtain ⟨children, body, rfl⟩ := (derives_node rfl).mp h
    obtain ⟨x, gives, -, sound⟩ := spells_assignment body
    exact ⟨_, rfl, x, gives.along, sound⟩
  | expr =>
    obtain ⟨t, single, x, gives, sound⟩ := gives_expr mem h
    exact ⟨t, single, x, gives.along, sound⟩

/-- A rule that derives one tree and no other leaves one phrase where it matches. -/
theorem Rule.single_phrase {P : Tree → Prop} {text : List Char} {ps : List Phrase}
    (spaced : (call r).isSpaced true = true)
    (single : ∀ {ts trees}, Derives (call r) ts trees → ∃ t, trees = [t] ∧ P t)
    (h : r.phrases text = .ok ps) : ∃ p : Phrase, ps = [p] ∧ P p.tree := by
  obtain ⟨q, reads⟩ := reads_of_phrases h
  obtain ⟨ts, derived, -⟩ := reads.derives spaced
  obtain ⟨t, same, holds⟩ := single derived
  rw [Phrase.trees_eq_map] at same
  obtain ⟨p, rfl, rfl⟩ := List.map_eq_singleton_iff.mp same
  exact ⟨p, rfl, holds⟩

/-- A matched rule of a construct leaves one phrase, and the reader of the construct reads it as
something well-formed. -/
theorem Construct.returns_wellFormed {c : Construct} {text : List Char} {ps : List Phrase}
    (mem : r ∈ c.rules) (h : r.phrases text = .ok ps) :
    ∃ p x, ps = [p] ∧ (c.read p).Returns x ∧ c.isWellFormed x = true := by
  have spaced : ∀ r ∈ c.rules, (call r).isSpaced true = true := by
    cases c <;> decide
  obtain ⟨p, rfl, x, gives, sound⟩ := Rule.single_phrase (spaced r mem) (Construct.gives mem) h
  exact ⟨p, x, rfl, gives p rfl, sound⟩

theorem Construct.returns {c : Construct} {text : List Char} {ps : List Phrase}
    (mem : r ∈ c.rules) (h : r.phrases text = .ok ps) :
    ∃ p x, ps = [p] ∧ (c.read p).Returns x := by
  obtain ⟨p, x, single, returns, -⟩ := Construct.returns_wellFormed mem h
  exact ⟨p, x, single, returns⟩

/-- A source is either rejected by the grammar, or has a phrase that is read as a program. -/
theorem Source.parse_cases (source : Source) :
    (∃ error, ∀ tally, source.parse tally = (.error (.rejected source.name error), tally.recordError)) ∨
      ∃ p program, Rule.program.phrases source.text.toList = .ok [p] ∧
        (Program.ofPhrase p).Returns program ∧
        ∀ tally, ∃ after, source.parse tally = (.ok program, after) := by
  cases found : Rule.program.phrases source.text.toList with
  | error frontier =>
    refine .inl ⟨.ofFrontier source.text.toList frontier, fun tally => ?_⟩
    unfold Source.parse
    rw [found]
  | ok ps =>
    obtain ⟨p, program, rfl, returns⟩ :=
      Construct.returns (c := .program) (List.mem_singleton_self _) found
    refine .inr ⟨p, program, rfl, returns, fun tally => ?_⟩
    obtain ⟨after, run⟩ := returns tally
    refine ⟨after, ?_⟩
    unfold Source.parse
    rw [found]
    dsimp only
    rw [show (Program.ofPhrase p).run.run tally = _ from run]

/-- Readers and grammar agree: whatever a rule of a construct matches is read without a flaw, on
every tally. So parsing a source ends with a program or with a rejection by the grammar. -/
theorem matched_rules_are_read :
    (∀ (c : Construct) (rule : Rule) (text : List Char) (phrases : List Phrase) (tally : Tally),
      rule ∈ c.rules → rule.phrases text = .ok phrases →
        ∃ p x after, phrases = [p] ∧ (c.read p).run.run tally = (.ok x, after)) ∧
      ∀ (source : Source) (tally : Tally),
        (∃ program after, source.parse tally = (.ok program, after)) ∨
          ∃ error after, source.parse tally = (.error (.rejected source.name error), after) := by
  constructor
  · intro c rule text phrases tally mem matched
    obtain ⟨p, x, rfl, returns⟩ := Construct.returns mem matched
    obtain ⟨after, run⟩ := returns tally
    exact ⟨p, x, after, rfl, run⟩
  · intro source tally
    rcases source.parse_cases with ⟨error, rejected⟩ | ⟨p, program, -, -, accepted⟩
    · exact .inr ⟨error, _, rejected tally⟩
    · obtain ⟨after, run⟩ := accepted tally
      exact .inl ⟨program, after, run⟩

/-- A block with a loop inside a branch, with several declarators and with operators of most levels
is matched, so it is read. The tally has seen its three levels. -/
theorem matched_rules_are_read_block :
    let text := ("\x7bint a,b=2;if(a<b||c!=1)\x7bfor(int i=0;i<9;i++)\x7bx[i]+=(a-b)*2;\x7d\x7d" ++
      "else\x7bint[] y=new int[3];a--;\x7d\x7d").toList
    ∃ phrases p x after, Rule.block.phrases text = .ok phrases ∧ phrases = [p] ∧
      (Construct.block.read p).run.run .fresh = (.ok x, after) ∧ after = ⟨0, 3, 0⟩ := by
  intro text
  have nested : (Rule.block.phrases text).toOption.map (fun phrases => phrases.map fun p =>
      ((Construct.block.read p).run.run .fresh).2) = some [⟨0, 3, 0⟩] := by decide +kernel
  cases found : Rule.block.phrases text with
  | error =>
    rw [found] at nested
    cases nested
  | ok phrases =>
    obtain ⟨p, x, after, rfl, run⟩ :=
      matched_rules_are_read.1 .block _ _ _ .fresh (List.mem_singleton_self _) found
    rw [found, Except.toOption, Option.map_some, List.map_singleton, run] at nested
    exact ⟨[p], p, x, after, rfl, rfl, run, List.singleton_inj.mp (Option.some_inj.mp nested)⟩

end SyntaxTree
