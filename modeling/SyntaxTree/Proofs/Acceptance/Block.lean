import SyntaxTree.Proofs.Acceptance.Header
import SyntaxTree.Proofs.Reading.Block

/-!
# Written blocks are read

A block is taken statement by statement, up to its closing brace. The kinds of
statements are told apart in their order: those with a block by their keyword, a
declaration by its type, and the others by what comes behind a declared array or
a place. That no `else` follows a bare `if` is known from the rest of the block.
-/

namespace SyntaxTree

open Pattern Rule Lexeme

variable {ts us vs ws : List Lexeme} {e : Expr} {b : Block} {pattern : Pattern}

/-! ## How statements begin -/

theorem VarDecl.Written.refuses {decl : VarDecl} (h : decl.Written ts)
    (avoided : ∀ type : DataType, pattern.avoids (.fixed type.keyword.toList) = true) :
    Refuses pattern (ts ++ us) := by
  obtain ⟨vs, -, rfl⟩ := h
  exact refuses_fixed (avoided decl.type)

theorem ArrayDecl.Written.refuses {decl : ArrayDecl} (h : decl.Written ts)
    (avoided : ∀ type : DataType, pattern.avoids (.fixed type.keyword.toList) = true) :
    Refuses pattern (ts ++ us) := by
  obtain ⟨vs, -, rfl | rfl⟩ := h
  · exact refuses_fixed (avoided decl.type)
  · exact refuses_fixed (avoided decl.type)

theorem ArrayInit.Written.refuses {init : ArrayInit} (h : init.Written ts)
    (avoided : ∀ type : DataType, pattern.avoids (.fixed type.keyword.toList) = true) :
    Refuses pattern (ts ++ us) := by
  obtain ⟨vs, ws, declared, -, rfl⟩ := h
  rw [List.append_assoc]
  exact declared.refuses avoided

/-- The rest of a block never goes on with `else`. -/
theorem Block.Written.refuses_else (h : Written b ts) (sound : Block.isWellFormed b = true) :
    Refuses (call kwElse) (ts ++ "\x7d".toList :: us) := by
  have types (type : DataType) : (call kwElse).avoids (.fixed type.keyword.toList) = true := by
    cases type <;> decide
  cases h with
  | nil => exact refuses_fixed (by decide)
  | @declaration decl _ _ _ first _ =>
    rw [List.append_assoc]
    rcases decl with decl | decl
    · exact VarDecl.Written.refuses first types
    · exact ArrayDecl.Written.refuses first types
  | @initialization init _ _ _ first _ =>
    rw [Block.isWellFormed, Stmt.isWellFormed, Bool.and_eq_true] at sound
    rw [List.append_assoc]
    cases init with
    | assign a => exact refuses_target first sound.1 (by decide)
    | array init => exact ArrayInit.Written.refuses first types
  | step first _ =>
    rw [Block.isWellFormed, Stmt.isWellFormed, Bool.and_eq_true] at sound
    rw [List.append_assoc]
    exact refuses_step first sound.1 (by decide) fun op => by cases op <;> decide
  | ifThen _ _ _ => exact refuses_fixed (t := "if".toList) (by decide)
  | ifElse _ _ _ _ => exact refuses_fixed (t := "if".toList) (by decide)
  | forLoop _ _ _ => exact refuses_fixed (t := "for".toList) (by decide)

/-- Declared variables begin with a name, and no dimension follows it. -/
theorem exists_first_name {declarators : List Declarator}
    (h : WrittenList Declarator.Written declarators ts)
    (sound : declarators.all Declarator.isWellFormed = true) (us : List Lexeme) :
    ∃ (name : String) (next : Lexeme) (vs : List Lexeme),
      ts ++ ";".toList :: us = name.toList :: next :: vs ∧ isName name.toList = true ∧
        next.endsPlace = true := by
  cases h with
  | last first =>
    simp only [List.all_cons, Declarator.isWellFormed, Bool.and_eq_true] at sound
    cases first with
    | bare name => exact ⟨name, _, _, rfl, sound.1.1, by decide⟩
    | init name _ => exact ⟨name, _, _, rfl, sound.1.1, by decide⟩
  | more first _ =>
    simp only [List.all_cons, Declarator.isWellFormed, Bool.and_eq_true] at sound
    cases first with
    | bare name => exact ⟨name, _, _, rfl, sound.1.1, by decide⟩
    | init name _ => exact ⟨name, _, _, rfl, sound.1.1, by decide⟩

/-- Behind the name of the first variable no dimension follows. -/
theorem refuses_arrayDecl {decl : VarDecl} (h : decl.Written ts) (sound : decl.isWellFormed = true) :
    Refuses (call arrayDecl) (ts ++ ";".toList :: us) := by
  obtain ⟨type, declarators⟩ := decl
  obtain ⟨vs, written, rfl⟩ := h
  simp only [VarDecl.isWellFormed, Bool.and_eq_true] at sound
  obtain ⟨name, next, ws, same, named, ends⟩ := exists_first_name written sound.2 us
  have front : Refuses (spaced [call ident, call .dims]) (name.toList :: next :: ws) := by
    have dim : Refuses (call dim) (next :: ws) := .node rfl (refuses_bracket ends).spaced
    have dims : Refuses (call .dims) (next :: ws) := .node rfl dim.spaced
    exact (takes_name named _).pair_refuses dims
  have back : Refuses (spaced [call .dims, call ident]) (name.toList :: next :: ws) :=
    refuses_name named (by decide)
  rw [List.cons_append, same]
  exact .node rfl ((takes_type sound.1.1 _).pair_refuses (front.choice back))

/-! ## Single statements -/

/-- In front of whatever comes behind it, the lexemes are taken as the statement. -/
def AcceptsStmt (stmt : Stmt) (ts : List Lexeme) : Prop :=
  ∃ t : Tree, t.GivesAlong Stmt.ofPhrase stmt ∧ ∀ us, Takes (call statement) (ts ++ us) us [t]

theorem accepts_declaration {decl : Declaration} (h : decl.Written ts)
    (sound : decl.isWellFormed = true) : AcceptsStmt (.declaration decl) (ts ++ [";".toList]) := by
  have types {r : Rule} (avoided : ∀ type : DataType,
      (call r).avoids (.fixed type.keyword.toList) = true) (us : List Lexeme) :
      Refuses (call r) (ts ++ us) := by
    rcases decl with decl | decl
    · exact VarDecl.Written.refuses h avoided
    · exact ArrayDecl.Written.refuses h avoided
  have other {t : Tree} {us : List Lexeme}
      (h : Takes (call declarationStmt) (ts ++ ";".toList :: us) us [t]) :
      Takes (call statement) (ts ++ [";".toList] ++ us) us [t] := by
    rw [List.append_assoc]
    exact .group rfl (.right (types (fun type => by cases type <;> decide) _)
      (.right (types (fun type => by cases type <;> decide) _)
        (.right (types (fun type => by cases type <;> decide) _) h.left)))
  rcases decl with decl | decl
  · have written : decl.Written ts := h
    obtain ⟨children, gives, takes⟩ := accepts_varDecl written sound
    refine ⟨_, Tree.gives_declaration_variable gives, fun us => other (.node rfl ?_)⟩
    exact (Takes.right (refuses_arrayDecl written sound) (takes us)).pair (takes_word ";")
  · have written : decl.Written ts := h
    obtain ⟨children, gives, accepts⟩ := accepts_arrayDecl written sound
    refine ⟨_, Tree.gives_declaration_array gives, fun us => other (.node rfl ?_)⟩
    exact (accepts _ us (by decide)).left.pair (takes_word ";")

theorem accepts_initialization {init : Initialization} (h : init.Written ts)
    (sound : init.isWellFormed = true) :
    AcceptsStmt (.initialization init) (ts ++ [";".toList]) := by
  rcases init with a | init
  · have written : a.Written ts := h
    obtain ⟨children, gives, accepts⟩ := accepts_assignment written sound
    refine ⟨_, Tree.gives_initialization_assign gives, fun us => .group rfl ?_⟩
    have refused {r : Rule} (avoided : (call r).avoids .name = true) :
        Refuses (call r) (ts ++ ";".toList :: us) := refuses_target written sound avoided
    have stmt : Takes (call initializationStmt) (ts ++ ";".toList :: us) us _ :=
      .node rfl ((Takes.right (refused (by decide)) (accepts _ us (by decide))).pair
        (takes_word ";"))
    rw [List.append_assoc]
    exact .right (refused (by decide)) (.right (refused (by decide)) (.right (refused (by decide))
      (.right (refused (by decide)) stmt.left)))
  · have written : init.Written ts := h
    obtain ⟨children, gives, accepts⟩ := accepts_arrayInit written sound
    refine ⟨_, Tree.gives_initialization_array gives, fun us => .group rfl ?_⟩
    have types {r : Rule} (avoided : ∀ type : DataType,
        (call r).avoids (.fixed type.keyword.toList) = true) :
        Refuses (call r) (ts ++ ";".toList :: us) := written.refuses avoided
    -- The declared array is read, and then the sign comes where the statement should end.
    have declaration : Refuses (call declarationStmt) (ts ++ ";".toList :: us) := by
      obtain ⟨vs, ws, declared, -, rfl⟩ := written
      rw [Initialization.isWellFormed, ArrayInit.isWellFormed, Bool.and_eq_true] at sound
      obtain ⟨_, -, accepts⟩ := accepts_arrayDecl declared sound.1
      rw [List.append_assoc]
      have array := accepts "=".toList (ws ++ ";".toList :: us) (by decide)
      exact .node rfl (array.left.pair_refuses (refuses_fixed (by decide)))
    have stmt : Takes (call initializationStmt) (ts ++ ";".toList :: us) us _ :=
      .node rfl ((accepts _ us (by decide)).left.pair (takes_word ";"))
    rw [List.append_assoc]
    exact .right (types fun type => by cases type <;> decide)
      (.right (types fun type => by cases type <;> decide)
        (.right (types fun type => by cases type <;> decide) (.right declaration stmt.left)))

theorem accepts_step {step : IncDec} (h : step.Written ts) (sound : step.isWellFormed = true) :
    AcceptsStmt (.step step) (ts ++ [";".toList]) := by
  obtain ⟨children, gives, accepts⟩ := accepts_incDec h sound
  refine ⟨_, Tree.gives_step gives rfl, fun us => .group rfl ?_⟩
  have refused {r : Rule} (avoided : (call r).avoids .name = true)
      (avoided' : ∀ op : IncDecOp, (call r).avoids (.fixed op.symbol.toList) = true) :
      Refuses (call r) (ts ++ ";".toList :: us) := refuses_step h sound avoided avoided'
  have array : Refuses (call arrayInit) (ts ++ ";".toList :: us) :=
    refused (by decide) fun op => by cases op <;> decide
  have initialization : Refuses (call initializationStmt) (ts ++ ";".toList :: us) :=
    .node rfl (array.choice (refuses_assignment h sound)).spaced
  have stmt : Takes (call expressionStmt) (ts ++ ";".toList :: us) us _ :=
    .node rfl ((accepts _ us (by decide)).pair (takes_word ";"))
  rw [List.append_assoc]
  exact .right (refused (by decide) fun op => by cases op <;> decide)
    (.right (refused (by decide) fun op => by cases op <;> decide)
      (.right (refused (by decide) fun op => by cases op <;> decide)
        (.right (refused (by decide) fun op => by cases op <;> decide)
          (.right initialization stmt))))

/-! ## Statements with blocks -/

/-- In front of whatever comes behind it, the lexemes are taken as the block in braces. -/
def AcceptsBlock (b : Block) (ts : List Lexeme) : Prop :=
  ∃ t : Tree, t.isPart = true ∧ t.GivesAlong Block.ofPhrase b ∧
    ∀ us, Takes (call block) ("\x7b".toList :: (ts ++ "\x7d".toList :: us)) us [t]

/-- A keyword that begins a statement. -/
theorem takes_keyword {r : Rule} {word : String} (lexical : r.kind = .lexical)
    (admitted : r.admits word.toList = true) (other : r ≠ .relOp) (us : List Lexeme) :
    Takes (call r) (word.toList :: us) us [.token r word.toList] :=
  takes_token lexical admitted fun same => absurd same other

theorem accepts_ifThen {body : Block} (h : e.WrittenTest ts) (sound : e.isWellFormed = true)
    (inside : AcceptsBlock body us) : ∃ t : Tree, t.GivesAlong Stmt.ofPhrase (.ifThen e body) ∧
      ∀ vs, Refuses (call kwElse) vs → Takes (call statement)
        ("if".toList :: ts ++ "\x7b".toList :: (us ++ "\x7d".toList :: vs)) vs [t] := by
  obtain ⟨ws, written, rfl⟩ := h
  obtain ⟨test, part, gives, accepts⟩ := written.accepts sound
  obtain ⟨inner, part', gives', takes⟩ := inside
  refine ⟨.node .ifStmt [.token .kwIf "if".toList, test, inner],
    Tree.gives_ifStmt gives part gives' part', fun vs bare => .group rfl ?_⟩
  have keyword (us : List Lexeme) : Takes (call kwIf) ("if".toList :: us) us _ :=
    takes_keyword rfl (by decide) (by decide) us
  have condition := accepts ")".toList ("\x7b".toList :: (us ++ "\x7d".toList :: vs)) (by decide)
  have alternative : Refuses (spaced [call kwElse, call block]) vs := bare.spaced
  have complete := (keyword _).then_refuses ((takes_word "(").then_refuses
    (condition.then_refuses ((takes_word ")").then_refuses ((takes vs).then_refuses alternative))))
  have stmt : Takes (call ifStmt) _ _ _ := .node rfl ((keyword _).then ((takes_word "(").then
    (condition.then ((takes_word ")").pair (takes vs)))))
  have whole : "if".toList :: ("(".toList :: ws ++ [")".toList]) ++
      "\x7b".toList :: (us ++ "\x7d".toList :: vs) = "if".toList :: "(".toList ::
        (ws ++ ")".toList :: "\x7b".toList :: (us ++ "\x7d".toList :: vs)) := by simp
  rw [whole]
  exact .right (.node rfl complete) stmt.left

theorem accepts_ifElse {body alternative : Block} (h : e.WrittenTest ts)
    (sound : e.isWellFormed = true) (inside : AcceptsBlock body us)
    (inside' : AcceptsBlock alternative vs) :
    ∃ t : Tree, t.GivesAlong Stmt.ofPhrase (.ifElse e body alternative) ∧ ∀ xs,
      Takes (call statement) ("if".toList :: ts ++ "\x7b".toList :: (us ++ "\x7d".toList ::
        "else".toList :: "\x7b".toList :: (vs ++ "\x7d".toList :: xs))) xs [t] := by
  obtain ⟨ws, written, rfl⟩ := h
  obtain ⟨test, part, gives, accepts⟩ := written.accepts sound
  obtain ⟨inner, part', gives', takes⟩ := inside
  obtain ⟨inner', part'', gives'', takes'⟩ := inside'
  refine ⟨.node .ifElseStmt [.token .kwIf "if".toList, test, inner, .token .kwElse "else".toList,
    inner'], Tree.gives_ifElseStmt gives part gives' part' gives'' part'', fun xs => .group rfl ?_⟩
  have keyword (us : List Lexeme) : Takes (call kwIf) ("if".toList :: us) us _ :=
    takes_keyword rfl (by decide) (by decide) us
  have keyword' (us : List Lexeme) : Takes (call kwElse) ("else".toList :: us) us _ :=
    takes_keyword rfl (by decide) (by decide) us
  have condition := accepts ")".toList ("\x7b".toList :: (us ++ "\x7d".toList ::
    "else".toList :: "\x7b".toList :: (vs ++ "\x7d".toList :: xs))) (by decide)
  have stmt : Takes (call ifElseStmt) _ _ _ := .node rfl ((keyword _).then
    ((takes_word "(").then (condition.then ((takes_word ")").then
      ((takes _).then ((keyword' _).pair (takes' xs)))))))
  have whole : "if".toList :: ("(".toList :: ws ++ [")".toList]) ++ "\x7b".toList ::
      (us ++ "\x7d".toList :: "else".toList :: "\x7b".toList :: (vs ++ "\x7d".toList :: xs)) =
      "if".toList :: "(".toList :: (ws ++ ")".toList :: "\x7b".toList :: (us ++ "\x7d".toList ::
        "else".toList :: "\x7b".toList :: (vs ++ "\x7d".toList :: xs))) := by simp
  rw [whole]
  exact stmt.left

theorem accepts_forLoop {clauses : ForClauses} {body : Block} (h : clauses.Written ts)
    (sound : clauses.isWellFormed = true) (inside : AcceptsBlock body us) :
    ∃ t : Tree, t.GivesAlong Stmt.ofPhrase (.forLoop clauses body) ∧ ∀ vs,
      Takes (call statement)
        ("for".toList :: ts ++ "\x7b".toList :: (us ++ "\x7d".toList :: vs)) vs [t] := by
  obtain ⟨header, part, gives, takes⟩ := accepts_forHeader h sound
  obtain ⟨inner, part', gives', takes'⟩ := inside
  refine ⟨.node .forStmt [.token .kwFor "for".toList, header, inner],
    Tree.gives_forStmt gives part gives' part', fun vs => .group rfl ?_⟩
  have keyword (us : List Lexeme) : Takes (call kwFor) ("for".toList :: us) us _ :=
    takes_keyword rfl (by decide) (by decide) us
  have stmt : Takes (call forStmt) _ _ _ := .node rfl ((keyword _).then ((takes _).pair (takes' vs)))
  exact .right (refuses_fixed (by decide)) (.right (refuses_fixed (by decide)) stmt.left)

/-! ## Every written block -/

/-- The lexemes are taken statement by statement. -/
def AcceptsStmts (b : Block) (ts : List Lexeme) : Prop :=
  ∃ trees, Tree.GivesAllAlong Stmt.ofPhrase trees b ∧ ∀ us,
    TakesMany (call statement) (ts ++ "\x7d".toList :: us) ("\x7d".toList :: us) trees

theorem AcceptsStmts.block (h : AcceptsStmts b ts) : AcceptsBlock b ts := by
  obtain ⟨trees, gives, takes⟩ := h
  refine ⟨.node .block trees, rfl, Tree.gives_block gives, fun us => .node rfl ?_⟩
  have inside := (takes_word "\x7b").then ((takes us).takes.pair (takes_word "\x7d"))
  rwa [List.append_nil] at inside

theorem AcceptsStmt.cons {stmt : Stmt} (h : AcceptsStmt stmt ts) (h' : AcceptsStmts b us) :
    AcceptsStmts (stmt :: b) (ts ++ us) := by
  obtain ⟨t, gives, takes⟩ := h
  obtain ⟨trees, all, takes'⟩ := h'
  refine ⟨t :: trees, .cons gives all, fun vs => ?_⟩
  rw [List.append_assoc]
  exact .more (takes _) (takes' vs)

theorem Block.Written.accepts (h : Written b ts) (sound : Block.isWellFormed b = true) :
    AcceptsStmts b ts := by
  induction h with
  | nil => exact ⟨[], .nil, fun us => .stop (refuses_fixed (by decide))⟩
  | declaration first others ih =>
    rw [isWellFormed, Stmt.isWellFormed, Bool.and_eq_true] at sound
    simpa using (accepts_declaration first sound.1).cons (ih sound.2)
  | initialization first others ih =>
    rw [isWellFormed, Stmt.isWellFormed, Bool.and_eq_true] at sound
    simpa using (accepts_initialization first sound.1).cons (ih sound.2)
  | step first others ih =>
    rw [isWellFormed, Stmt.isWellFormed, Bool.and_eq_true] at sound
    simpa using (accepts_step first sound.1).cons (ih sound.2)
  | ifThen test inside others ih ih' =>
    simp only [isWellFormed, Stmt.isWellFormed, Bool.and_eq_true] at sound
    obtain ⟨t, gives, takes⟩ := accepts_ifThen test sound.1.1 (ih sound.1.2).block
    obtain ⟨trees, all, takes'⟩ := ih' sound.2
    refine ⟨t :: trees, .cons gives all, fun us => ?_⟩
    have bare : Refuses (call kwElse) (_ ++ "\x7d".toList :: us) := others.refuses_else sound.2
    simpa using TakesMany.more (takes _ bare) (takes' us)
  | ifElse test inside inside' others ih ih' ih'' =>
    simp only [isWellFormed, Stmt.isWellFormed, Bool.and_eq_true] at sound
    have stmt := accepts_ifElse test sound.1.1.1 (ih sound.1.1.2).block (ih' sound.1.2).block
    obtain ⟨t, gives, takes⟩ := stmt
    obtain ⟨trees, all, takes'⟩ := ih'' sound.2
    refine ⟨t :: trees, .cons gives all, fun us => ?_⟩
    simpa using TakesMany.more (takes _) (takes' us)
  | forLoop header inside others ih ih' =>
    simp only [isWellFormed, Stmt.isWellFormed, Bool.and_eq_true] at sound
    obtain ⟨t, gives, takes⟩ := accepts_forLoop header sound.1.1 (ih sound.1.2).block
    obtain ⟨trees, all, takes'⟩ := ih' sound.2
    refine ⟨t :: trees, .cons gives all, fun us => ?_⟩
    simpa using TakesMany.more (takes _) (takes' us)

end SyntaxTree
