import SyntaxTree.Proofs.Reading.Block
import SyntaxTree.Proofs.Soundness.Clause

/-!
# Derived blocks and classes

A derived block gives a well-formed block, on every tally, and the derived
lexemes are a writing of it. The induction is on the size of the tree: blocks
stand in statements, which stand in blocks.
-/

namespace SyntaxTree

open Pattern Rule Lexeme

variable {ts : List Lexeme} {trees : List Tree} {t : Tree} {rest : List Pattern}

/-- The tree is a statement, and the lexemes write it in front of any other statements. -/
def Tree.SpellsStmt (t : Tree) (ts : List Lexeme) : Prop :=
  ∃ stmt, t.GivesAlong Stmt.ofPhrase stmt ∧ stmt.isWellFormed = true ∧
    ∀ others us, Block.Written others us → Block.Written (stmt :: others) (ts ++ us)

/-- The tree is a block, and the lexemes write it with its braces. -/
def Tree.SpellsBlock (t : Tree) (ts : List Lexeme) : Prop :=
  ∃ b us, t.GivesAlong Block.ofPhrase b ∧ Block.isWellFormed b = true ∧ Block.Written b us ∧
    ts = "\x7b".toList :: us ++ ["\x7d".toList]

/-- A condition in parentheses, in front of whatever comes behind it. -/
theorem spells_test
    (h : DerivesEach (word "(" :: call logicalOr :: word ")" :: rest) ts trees) :
    ∃ us vs t trees' e, DerivesEach rest vs trees' ∧ ts = us ++ vs ∧ trees = t :: trees' ∧
      t.isPart = true ∧ t.Gives Expr.ofPhrase e ∧ e.WrittenTest us ∧ e.isWellFormed = true := by
  obtain ⟨_, inside, rfl⟩ := (each_word (by decide)).mp h
  obtain ⟨us, _, _, trees', value, close, rfl, rfl⟩ := inside
  obtain ⟨vs, others, rfl⟩ := (each_word (by decide)).mp close
  obtain ⟨t, rfl, part, e, gives, written, sound⟩ := spells_logicalOr value
  exact ⟨"(".toList :: us ++ [")".toList], vs, t, trees', e, others, by simp, rfl, part, gives,
    ⟨us, written, rfl⟩, sound⟩

/-- The statements of a block, if each of its items is one. -/
theorem spells_statements {items : List (List Lexeme × List Tree)}
    (each : ∀ i ∈ items, ∃ t, i.2 = [t] ∧ t.SpellsStmt i.1) :
    ∃ b, Tree.GivesAllAlong Stmt.ofPhrase (items.flatMap Prod.snd) b ∧
      Block.isWellFormed b = true ∧ Block.Written b (items.flatMap Prod.fst) := by
  induction items with
  | nil => exact ⟨[], .nil, rfl, .nil⟩
  | cons item items ih =>
    obtain ⟨⟨t, single, stmt, gives, sound, writes⟩, later⟩ := List.forall_mem_cons.mp each
    obtain ⟨b, all, sound', written⟩ := ih later
    refine ⟨stmt :: b, ?_, by rw [Block.isWellFormed, sound, sound']; rfl, writes _ _ written⟩
    rw [List.flatMap_cons, single]
    exact .cons gives all

/-! ## Statements without a block -/

theorem spells_declarationStmt (h : Derives declarationStmt.body ts trees) :
    (Tree.node .declarationStmt trees).SpellsStmt ts := by
  have parts : DerivesEach [choice (call arrayDecl) (call varDecl), word ";"] ts trees :=
    derives_spaced.mp h
  obtain ⟨us, _, trees', _, declared, close, rfl, rfl⟩ := parts
  obtain ⟨_, ⟨rfl, rfl⟩, rfl⟩ := (each_word (by decide)).mp close
  rw [List.append_nil]
  rcases derives_choice.mp declared with array | scalar
  · obtain ⟨children, body, rfl⟩ := (derives_node rfl).mp array
    obtain ⟨decl, gives, written, sound⟩ := spells_arrayDecl body
    refine ⟨.declaration (.array decl), Tree.gives_declaration_array gives, ?_, ?_⟩
    · rw [Stmt.isWellFormed, Declaration.isWellFormed, sound]
    · intro others vs behind
      have first : Declaration.Written (.array decl) us := written
      simpa using Block.Written.declaration first behind
  · obtain ⟨children, body, rfl⟩ := (derives_node rfl).mp scalar
    obtain ⟨decl, gives, written, sound⟩ := spells_varDecl body
    refine ⟨.declaration (.variable decl), Tree.gives_declaration_variable gives, ?_, ?_⟩
    · rw [Stmt.isWellFormed, Declaration.isWellFormed, sound]
    · intro others vs behind
      have first : Declaration.Written (.variable decl) us := written
      simpa using Block.Written.declaration first behind

theorem spells_initializationStmt (h : Derives initializationStmt.body ts trees) :
    (Tree.node .initializationStmt trees).SpellsStmt ts := by
  have parts : DerivesEach [choice (call arrayInit) (call assignment), word ";"] ts trees :=
    derives_spaced.mp h
  obtain ⟨us, _, trees', _, assigned, close, rfl, rfl⟩ := parts
  obtain ⟨_, ⟨rfl, rfl⟩, rfl⟩ := (each_word (by decide)).mp close
  rw [List.append_nil]
  rcases derives_choice.mp assigned with array | place
  · obtain ⟨children, body, rfl⟩ := (derives_node rfl).mp array
    obtain ⟨init, gives, written, sound⟩ := spells_arrayInit body
    refine ⟨.initialization (.array init), Tree.gives_initialization_array gives, ?_, ?_⟩
    · rw [Stmt.isWellFormed, Initialization.isWellFormed, sound]
    · intro others vs behind
      have first : Initialization.Written (.array init) us := written
      simpa using Block.Written.initialization first behind
  · obtain ⟨children, body, rfl⟩ := (derives_node rfl).mp place
    obtain ⟨a, gives, written, sound⟩ := spells_assignment body
    refine ⟨.initialization (.assign a), Tree.gives_initialization_assign gives, ?_, ?_⟩
    · rw [Stmt.isWellFormed, Initialization.isWellFormed, sound]
    · intro others vs behind
      have first : Initialization.Written (.assign a) us := written
      simpa using Block.Written.initialization first behind

theorem spells_expressionStmt (h : Derives expressionStmt.body ts trees) :
    (Tree.node .expressionStmt trees).SpellsStmt ts := by
  have parts : DerivesEach [call incDec, word ";"] ts trees := derives_spaced.mp h
  obtain ⟨us, _, children, _, derived, close, rfl, rfl⟩ := (each_node rfl).mp parts
  obtain ⟨_, ⟨rfl, rfl⟩, rfl⟩ := (each_word (by decide)).mp close
  obtain ⟨step, gives, written, sound⟩ := incDec_spells derived
  refine ⟨.step step, Tree.gives_step gives rfl, ?_, ?_⟩
  · rw [Stmt.isWellFormed, sound]
  · intro others vs behind
    simpa using Block.Written.step written behind

/-! ## Statements with blocks -/

section Nested

variable {n : Nat}

/-- What is to be shown of all blocks below a size. -/
def Blocks (n : Nat) : Prop :=
  ∀ {ts children}, sizeOf (Tree.node .block children) < n → Derives block.body ts children →
    (Tree.node .block children).SpellsBlock ts

theorem spells_ifStmt (ih : Blocks n) (small : ∀ t ∈ trees, sizeOf t < n)
    (h : Derives ifStmt.body ts trees) : (Tree.node .ifStmt trees).SpellsStmt ts := by
  have parts : DerivesEach [call kwIf, word "(", call logicalOr, word ")", call block] ts trees :=
    derives_spaced.mp h
  obtain ⟨w, _, _, admitted, condition, rfl, rfl⟩ := (each_token rfl).mp parts
  obtain ⟨us, _, test, _, e, body, rfl, rfl, part, gives, written, sound⟩ := spells_test condition
  obtain ⟨vs, _, children, _, derived, ⟨rfl, rfl⟩, rfl, rfl⟩ := (each_node rfl).mp body
  obtain ⟨b, ws, gives', sound', inside, rfl⟩ := ih (small _ (by simp)) derived
  have word : w = "if".toList := by simpa [admits, words, symbols] using admitted
  refine ⟨.ifThen e b, Tree.gives_ifStmt gives part gives' rfl, ?_, ?_⟩
  · rw [Stmt.isWellFormed, sound, sound']
    rfl
  · intro others xs behind
    rw [word]
    simpa using Block.Written.ifThen written inside behind

theorem spells_ifElseStmt (ih : Blocks n) (small : ∀ t ∈ trees, sizeOf t < n)
    (h : Derives ifElseStmt.body ts trees) : (Tree.node .ifElseStmt trees).SpellsStmt ts := by
  have parts : DerivesEach [call kwIf, word "(", call logicalOr, word ")", call block,
      call kwElse, call block] ts trees := derives_spaced.mp h
  obtain ⟨w, _, _, admitted, condition, rfl, rfl⟩ := (each_token rfl).mp parts
  obtain ⟨us, _, test, _, e, body, rfl, rfl, part, gives, written, sound⟩ := spells_test condition
  obtain ⟨vs, _, children, _, derived, alternative, rfl, rfl⟩ := (each_node rfl).mp body
  obtain ⟨w', _, _, admitted', body', rfl, rfl⟩ := (each_token rfl).mp alternative
  obtain ⟨vs', _, children', _, derived', ⟨rfl, rfl⟩, rfl, rfl⟩ := (each_node rfl).mp body'
  obtain ⟨b, ws, gives', sound', inside, rfl⟩ := ih (small _ (by simp)) derived
  obtain ⟨b', ws', gives'', sound'', inside', rfl⟩ := ih (small _ (by simp)) derived'
  have word : w = "if".toList := by simpa [admits, words, symbols] using admitted
  have word' : w' = "else".toList := by simpa [admits, words, symbols] using admitted'
  refine ⟨.ifElse e b b', Tree.gives_ifElseStmt gives part gives' rfl gives'' rfl, ?_, ?_⟩
  · rw [Stmt.isWellFormed, sound, sound', sound'']
    rfl
  · intro others xs behind
    rw [word, word']
    simpa using Block.Written.ifElse written inside inside' behind

theorem spells_forStmt (ih : Blocks n) (small : ∀ t ∈ trees, sizeOf t < n)
    (h : Derives forStmt.body ts trees) : (Tree.node .forStmt trees).SpellsStmt ts := by
  have parts : DerivesEach [call kwFor, call forHeader, call block] ts trees :=
    derives_spaced.mp h
  obtain ⟨w, _, _, admitted, headed, rfl, rfl⟩ := (each_token rfl).mp parts
  obtain ⟨us, _, trees', _, header, body, rfl, rfl⟩ := headed
  obtain ⟨vs, _, children, _, derived, ⟨rfl, rfl⟩, rfl, rfl⟩ := (each_node rfl).mp body
  obtain ⟨t, rfl, part, clauses, gives, written, sound⟩ := spells_forHeader header
  obtain ⟨b, ws, gives', sound', inside, rfl⟩ := ih (small _ (by simp)) derived
  have word : w = "for".toList := by simpa [admits, words, symbols] using admitted
  refine ⟨.forLoop clauses b, Tree.gives_forStmt gives part gives' rfl, ?_, ?_⟩
  · rw [Stmt.isWellFormed, sound, sound']
    rfl
  · intro others xs behind
    rw [word]
    simpa using Block.Written.forLoop written inside behind

theorem spells_statement (ih : Blocks n) (small : ∀ t ∈ trees, sizeOf t < n)
    (h : Derives (call statement) ts trees) : ∃ t, trees = [t] ∧ t.SpellsStmt ts := by
  have inside {r : Rule} {children : List Tree} (mem : Tree.node r children ∈ trees) :
      ∀ t ∈ children, sizeOf t < n :=
    fun _ mem' => Nat.lt_trans (Tree.sizeOf_lt_of_mem mem') (small _ mem)
  have alternatives : Derives (oneOf _) ts trees := (derives_group rfl).mp h
  simp only [oneOf, derives_choice, derives_node (r := ifElseStmt) rfl,
    derives_node (r := ifStmt) rfl, derives_node (r := forStmt) rfl,
    derives_node (r := declarationStmt) rfl, derives_node (r := initializationStmt) rfl,
    derives_node (r := expressionStmt) rfl] at alternatives
  obtain ⟨children, body, rfl⟩ | ⟨children, body, rfl⟩ | ⟨children, body, rfl⟩ |
    ⟨children, body, rfl⟩ | ⟨children, body, rfl⟩ | ⟨children, body, rfl⟩ := alternatives
  · exact ⟨_, rfl, spells_ifElseStmt ih (inside (List.mem_singleton_self _)) body⟩
  · exact ⟨_, rfl, spells_ifStmt ih (inside (List.mem_singleton_self _)) body⟩
  · exact ⟨_, rfl, spells_forStmt ih (inside (List.mem_singleton_self _)) body⟩
  · exact ⟨_, rfl, spells_declarationStmt body⟩
  · exact ⟨_, rfl, spells_initializationStmt body⟩
  · exact ⟨_, rfl, spells_expressionStmt body⟩

theorem blocks (n : Nat) : Blocks n := by
  induction n with
  | zero => exact fun small _ => absurd small (Nat.not_lt_zero _)
  | succ n ih =>
    intro ts children small h
    have parts : DerivesEach [word "\x7b", spacedMany (call statement), word "\x7d"] ts children :=
      derives_spaced.mp h
    obtain ⟨_, inside, rfl⟩ := (each_word (by decide)).mp parts
    obtain ⟨us, _, trees, _, statements, close, rfl, rfl⟩ := inside
    obtain ⟨_, ⟨rfl, rfl⟩, rfl⟩ := (each_word (by decide)).mp close
    obtain ⟨items, each, rfl, rfl⟩ := derives_spacedMany.mp statements
    rw [List.append_nil] at small ⊢
    have one : ∀ i ∈ items, ∃ t, i.2 = [t] ∧ t.SpellsStmt i.1 := by
      intro i mem
      refine spells_statement ih (fun t mem' => ?_) (each i mem)
      have inner : t ∈ items.flatMap Prod.snd := List.mem_flatMap.mpr ⟨i, mem, mem'⟩
      exact Nat.lt_of_lt_of_le (Tree.sizeOf_lt_of_mem inner) (Nat.lt_succ_iff.mp small)
    obtain ⟨b, all, sound, written⟩ := spells_statements one
    exact ⟨b, _, Tree.gives_block all, sound, written, rfl⟩

end Nested

theorem block_spells (h : Derives block.body ts trees) :
    (Tree.node .block trees).SpellsBlock ts :=
  blocks _ (Nat.lt_succ_self _) h

theorem statement_spells (h : Derives (call statement) ts trees) :
    ∃ t, trees = [t] ∧ t.SpellsStmt ts :=
  spells_statement (blocks (sizeOf trees + 1))
    (fun _ mem => Nat.lt_succ_of_lt (List.sizeOf_lt_of_mem mem)) h

end SyntaxTree
