import SyntaxTree.Proofs.Reading.Clause
import SyntaxTree.Proofs.Soundness.Expr

/-!
# Derived clauses

Declarations, assignments and loop headers, each from what its body derives. The
eight headers are one, with clauses that may be absent.
-/

namespace SyntaxTree

open Pattern Rule Lexeme

variable {ts : List Lexeme} {trees : List Tree}

section Items

variable {α : Type} {read : Phrase → Except ShapeError α} {written : α → List Lexeme → Prop}
variable {isWellFormed : α → Bool} {item : Rule}

/-- Behind a first item, what commas and further items derive makes a list with it. -/
theorem spells_more {items : List (List Lexeme × List Tree)} {t : Tree}
    (one : ∀ {ts trees}, Derives (call item) ts trees →
      ∃ t, trees = [t] ∧ t.Spells read written isWellFormed ts)
    (each : ∀ i ∈ items, Derives (spaced [word ",", call item]) i.1 i.2)
    (first : t.Spells read written isWellFormed ts) :
    ∃ x xs, Tree.GivesAll read (t :: items.flatMap Prod.snd) (x :: xs) ∧
      WrittenList written (x :: xs) (ts ++ items.flatMap Prod.fst) ∧
      (x :: xs).all isWellFormed = true := by
  induction items generalizing t ts with
  | nil =>
    obtain ⟨x, gives, spelled, sound⟩ := first
    exact ⟨x, [], .cons gives .nil, by simpa using .last spelled, by simpa using sound⟩
  | cons item items ih =>
    obtain ⟨x, gives, spelled, sound⟩ := first
    obtain ⟨next, later⟩ := List.forall_mem_cons.mp each
    obtain ⟨_, single, comma⟩ := (each_word (by decide)).mp (derives_spaced.mp next)
    obtain ⟨us, _, trees, _, derived, ⟨rfl, rfl⟩, rfl, same⟩ := single
    obtain ⟨t', rfl, second⟩ := one derived
    obtain ⟨x', xs, all, writes, wf⟩ := ih later second
    refine ⟨x, x' :: xs, ?_, ?_, ?_⟩
    · rw [List.flatMap_cons, same]
      exact .cons gives all
    · rw [List.flatMap_cons, comma]
      simpa using WrittenList.more spelled writes
    · rw [List.all_cons, sound, wf]
      rfl

/-- Items with commas between them give a list that is not empty. -/
theorem spells_items {rest : List Pattern}
    (one : ∀ {ts trees}, Derives (call item) ts trees →
      ∃ t, trees = [t] ∧ t.Spells read written isWellFormed ts)
    (h : DerivesEach (commaSeparated item ++ rest) ts trees) :
    ∃ us vs trees₁ trees₂ x xs, DerivesEach rest vs trees₂ ∧ ts = us ++ vs ∧
      trees = trees₁ ++ trees₂ ∧ Tree.GivesAll read trees₁ (x :: xs) ∧
      WrittenList written (x :: xs) us ∧ (x :: xs).all isWellFormed = true := by
  obtain ⟨us, _, trees₁, _, first, ⟨vs, ws, trees₂, trees₃, others, after, rfl, rfl⟩, rfl, rfl⟩ := h
  obtain ⟨items, each, rfl, rfl⟩ := derives_spacedMany.mp others
  obtain ⟨t, rfl, spells⟩ := one first
  obtain ⟨x, xs, all, writes, wf⟩ := spells_more one each spells
  exact ⟨us ++ items.flatMap Prod.fst, ws, t :: items.flatMap Prod.snd, trees₃, x, xs, after,
    by simp, by simp, all, writes, wf⟩

end Items

theorem spells_declarator (h : Derives declarator.body ts trees) :
    (Tree.node .declarator trees).Spells Declarator.ofPhrase Declarator.Written
      Declarator.isWellFormed ts := by
  have parts : DerivesEach [call ident,
      optional (spaced [word "=", absent (word "="), call logicalOr])] ts trees :=
    derives_spaced.mp h
  obtain ⟨w, _, _, admitted, value, rfl, rfl⟩ := (each_token rfl).mp parts
  obtain ⟨us, _, children, _, init, ⟨rfl, rfl⟩, rfl, rfl⟩ := value
  have name : isName w = true := admitted
  rcases derives_optional.mp init with init | ⟨rfl, rfl⟩
  · obtain ⟨_, guarded, rfl⟩ := (each_word (by decide)).mp (derives_spaced.mp init)
    obtain ⟨us, _, children, _, derived, ⟨rfl, rfl⟩, rfl, rfl⟩ := each_absent.mp guarded
    obtain ⟨t, rfl, -, e, gives, written, sound⟩ := spells_logicalOr derived
    have writes := Declarator.Written.init (String.ofList w) written
    rw [String.toList_ofList (l := w)] at writes
    refine ⟨_, Tree.gives_declarator_init gives, by simpa using writes, ?_⟩
    simp [Declarator.isWellFormed, name, sound]
  · have writes := Declarator.Written.bare (String.ofList w)
    rw [String.toList_ofList (l := w)] at writes
    refine ⟨_, Tree.gives_declarator, writes, ?_⟩
    simp [Declarator.isWellFormed, name]

theorem spells_varDecl (h : Derives varDecl.body ts trees) :
    (Tree.node .varDecl trees).Spells VarDecl.ofPhrase VarDecl.Written VarDecl.isWellFormed ts := by
  have parts : DerivesEach (call dataType :: commaSeparated declarator) ts trees :=
    derives_spaced.mp h
  obtain ⟨w, _, _, word, items, rfl, rfl⟩ := (each_token rfl).mp parts
  obtain ⟨type, rfl, sound⟩ := type_of_admits word
  have one {ts : List Lexeme} {trees : List Tree} (h : Derives (call declarator) ts trees) :
      ∃ t, trees = [t] ∧ t.Spells Declarator.ofPhrase Declarator.Written
        Declarator.isWellFormed ts := by
    obtain ⟨children, body, rfl⟩ := (derives_node rfl).mp h
    exact ⟨_, rfl, spells_declarator body⟩
  rw [← List.append_nil (commaSeparated declarator)] at items
  obtain ⟨us, _, trees₁, _, d, ds, ⟨rfl, rfl⟩, rfl, rfl, all, written, sound'⟩ :=
    spells_items one items
  rw [List.append_nil, List.append_nil]
  refine ⟨⟨type, d :: ds⟩, Tree.gives_varDecl all (by simp), ⟨us, written, rfl⟩, ?_⟩
  rw [VarDecl.isWellFormed, sound, sound']
  rfl

/-- The name and the dimensions come in either order. -/
theorem spells_arrayDecl (h : Derives arrayDecl.body ts trees) :
    (Tree.node .arrayDecl trees).Spells ArrayDecl.ofPhrase ArrayDecl.Written
      ArrayDecl.isWellFormed ts := by
  have parts : DerivesEach [call dataType, choice (spaced [call ident, call dims])
      (spaced [call dims, call ident])] ts trees := derives_spaced.mp h
  obtain ⟨w, _, _, word, orders, rfl, rfl⟩ := (each_token rfl).mp parts
  obtain ⟨us, _, children, _, order, ⟨rfl, rfl⟩, rfl, rfl⟩ := orders
  obtain ⟨type, rfl, sound⟩ := type_of_admits word
  rcases derives_choice.mp order with front | back
  · obtain ⟨w, _, _, admitted, others, rfl, rfl⟩ := (each_token rfl).mp (derives_spaced.mp front)
    obtain ⟨vs, _, brackets, _, derived, ⟨rfl, rfl⟩, rfl, rfl⟩ := (each_node rfl).mp others
    obtain ⟨sizes, gives, written, sound'⟩ := spells_dims derived
    refine ⟨⟨type, String.ofList w, sizes⟩, Tree.gives_arrayDecl gives (.inl rfl),
      ⟨vs, written, .inl ?_⟩, ?_⟩
    · simp
    · rw [ArrayDecl.isWellFormed, sound, sound', name_of_admits admitted]
      rfl
  · obtain ⟨vs, _, brackets, _, derived, others, rfl, rfl⟩ :=
      (each_node rfl).mp (derives_spaced.mp back)
    obtain ⟨w, _, _, admitted, ⟨rfl, rfl⟩, rfl, rfl⟩ := (each_token rfl).mp others
    obtain ⟨sizes, gives, written, sound'⟩ := spells_dims derived
    refine ⟨⟨type, String.ofList w, sizes⟩, Tree.gives_arrayDecl gives (.inr rfl),
      ⟨vs, written, .inr ?_⟩, ?_⟩
    · simp
    · rw [ArrayDecl.isWellFormed, sound, sound', name_of_admits admitted]
      rfl

theorem spells_initList (h : Derives initList.body ts trees) :
    (Tree.node .initList trees).Spells ArrayInitializer.ofPhrase ArrayInitializer.Written
      ArrayInitializer.isWellFormed ts := by
  have parts : DerivesEach (word "\x7b" :: (commaSeparated logicalOr ++ [word "\x7d"])) ts trees :=
    derives_spaced.mp h
  obtain ⟨_, items, rfl⟩ := (each_word (by decide)).mp parts
  have one {ts : List Lexeme} {trees : List Tree} (h : Derives (call logicalOr) ts trees) :
      ∃ t, trees = [t] ∧ t.SpellsExpr 0 ts := by
    obtain ⟨t, single, -, spelled⟩ := spells_logicalOr h
    exact ⟨t, single, spelled⟩
  obtain ⟨us, _, trees₁, _, e, es, close, rfl, rfl, all, written, sound⟩ := spells_items one items
  obtain ⟨_, ⟨rfl, rfl⟩, rfl⟩ := (each_word (by decide)).mp close
  rw [List.append_nil]
  cases all with
  | cons first others =>
    exact ⟨.list e es, Tree.gives_initList (.cons first others), .list written, sound⟩

theorem spells_initializer (h : Derives arrayInitializer.body ts trees) :
    ∃ t, trees = [t] ∧ t.isPart = true ∧ t.Spells ArrayInitializer.ofPhrase
      ArrayInitializer.Written ArrayInitializer.isWellFormed ts := by
  rcases derives_choice.mp h with list | new
  · obtain ⟨children, body, rfl⟩ := (derives_node rfl).mp list
    exact ⟨_, rfl, rfl, spells_initList body⟩
  · obtain ⟨children, body, rfl⟩ := (derives_node rfl).mp new
    obtain ⟨⟨type, dims⟩, gives, ⟨us, written, rfl⟩, sound⟩ := spells_new body
    exact ⟨_, rfl, rfl, _, Tree.gives_initializer_new gives, .new type written, sound⟩

theorem spells_arrayInit (h : Derives arrayInit.body ts trees) :
    (Tree.node .arrayInit trees).Spells ArrayInit.ofPhrase ArrayInit.Written
      ArrayInit.isWellFormed ts := by
  have parts : DerivesEach [call arrayDecl, word "=", call arrayInitializer] ts trees :=
    derives_spaced.mp h
  obtain ⟨us, _, declTrees, _, declared, equals, rfl, rfl⟩ := (each_node rfl).mp parts
  obtain ⟨_, value, rfl⟩ := (each_word (by decide)).mp equals
  obtain ⟨vs, _, valueTrees, _, derived, ⟨rfl, rfl⟩, rfl, rfl⟩ := (each_node rfl).mp value
  obtain ⟨decl, gives, written, sound⟩ := spells_arrayDecl declared
  obtain ⟨t, rfl, part, init, gives', written', sound'⟩ := spells_initializer derived
  rw [List.append_nil]
  refine ⟨⟨decl, init⟩, Tree.gives_arrayInit gives rfl gives' part, ⟨us, vs, written, written', rfl⟩,
    ?_⟩
  rw [ArrayInit.isWellFormed, sound, sound']
  rfl

theorem assign_of_admits {w : Lexeme} (h : assignOp.admits w = true) :
    ∃ op : AssignOp, w = op.symbol.toList := by
  obtain ⟨op, -, same⟩ := exists_of_admits AssignOp.all AssignOp.symbol (by decide) (by decide) h
  exact ⟨op, same⟩

theorem spells_assignment (h : Derives assignment.body ts trees) :
    (Tree.node .assignment trees).Spells Assignment.ofPhrase Assignment.Written
      Assignment.isWellFormed ts := by
  have parts : DerivesEach [call place, call assignOp, call logicalOr] ts trees :=
    derives_spaced.mp h
  obtain ⟨us, _, placeTrees, _, target, operator, rfl, rfl⟩ := (each_node rfl).mp parts
  obtain ⟨w, _, _, admitted, value, rfl, rfl⟩ := (each_token rfl).mp operator
  obtain ⟨vs, _, valueTrees, _, derived, ⟨rfl, rfl⟩, rfl, rfl⟩ := value
  obtain ⟨op, rfl⟩ := assign_of_admits admitted
  obtain ⟨place, gives, written, sound⟩ := place_spells target
  obtain ⟨t, rfl, part, e, gives', written', sound'⟩ := spells_logicalOr derived
  rw [List.append_nil, List.append_nil]
  refine ⟨⟨place, op, e⟩, Tree.gives_assignment gives rfl gives' part,
    ⟨us, vs, written, written', rfl⟩, ?_⟩
  rw [Assignment.isWellFormed, written.isPlace, sound, sound']
  rfl

theorem spells_forInit (h : Derives (call forInitClause) ts trees) :
    ∃ t, trees = [t] ∧ t.isPart = true ∧
      t.Spells ForInit.ofPhrase ForInit.Written ForInit.isWellFormed ts := by
  obtain ⟨children, body, rfl⟩ := (derives_node rfl).mp h
  refine ⟨_, rfl, rfl, ?_⟩
  rcases derives_choice.mp body with decl | assigned
  · obtain ⟨inner, derived, rfl⟩ := (derives_node rfl).mp decl
    obtain ⟨d, gives, written, sound⟩ := spells_varDecl derived
    exact ⟨.declaration d, Tree.gives_forInit_declaration gives, written, sound⟩
  · obtain ⟨inner, derived, rfl⟩ := (derives_node rfl).mp assigned
    obtain ⟨a, gives, written, sound⟩ := spells_assignment derived
    exact ⟨.assignment a, Tree.gives_forInit_assignment gives, written, sound⟩

theorem spells_forUpdate (h : Derives (call forUpdateClause) ts trees) :
    ∃ t, trees = [t] ∧ t.isPart = true ∧
      t.Spells ForUpdate.ofPhrase ForUpdate.Written ForUpdate.isWellFormed ts := by
  obtain ⟨children, body, rfl⟩ := (derives_node rfl).mp h
  refine ⟨_, rfl, rfl, ?_⟩
  rcases derives_choice.mp body with assigned | step
  · obtain ⟨inner, derived, rfl⟩ := (derives_node rfl).mp assigned
    obtain ⟨a, gives, written, sound⟩ := spells_assignment derived
    exact ⟨.assignment a, Tree.gives_forUpdate_assignment gives, written, sound⟩
  · obtain ⟨inner, derived, rfl⟩ := (derives_node rfl).mp step
    obtain ⟨s, gives, written, sound⟩ := incDec_spells derived
    exact ⟨.incDec s, Tree.gives_forUpdate_incDec gives, written, sound⟩

/-! ## Loop headers -/

theorem spells_option {α : Type} {read : Phrase → Except ShapeError α}
    {written : α → List Lexeme → Prop} {isWellFormed : α → Bool} {clause : Rule} {there : Bool}
    {rest : List Pattern}
    (one : ∀ {ts trees}, Derives (call clause) ts trees →
      ∃ t, trees = [t] ∧ t.isPart = true ∧ t.Spells read written isWellFormed ts)
    (h : DerivesEach ((if there then [call clause] else []) ++ rest) ts trees) :
    ∃ us vs trees₂ t x, DerivesEach rest vs trees₂ ∧ ts = us ++ vs ∧
      trees = t.toList ++ trees₂ ∧ t.isSome = there ∧ Tree.GivesOption read t x ∧
      WrittenOption written x us ∧ x.all isWellFormed = true := by
  cases there with
  | false => exact ⟨[], ts, trees, none, none, h, rfl, rfl, rfl, .none, rfl, rfl⟩
  | true =>
    obtain ⟨us, vs, trees₁, trees₂, derived, others, rfl, rfl⟩ := h
    obtain ⟨t, rfl, part, x, gives, written, sound⟩ := one derived
    exact ⟨us, vs, trees₂, some t, some x, others, rfl, rfl, rfl, .some gives part, written, sound⟩

/-- A derived header has the clauses that its rule names. -/
theorem header_clauses {init condition update : Bool}
    (h : Derives (Tree.header init condition update).body ts trees) :
    ∃ clauses, (Tree.node (Tree.header init condition update) trees).Gives ForClauses.ofPhrase clauses ∧
      clauses.Written ts ∧ clauses.isWellFormed = true ∧ clauses.init.isSome = init ∧
      clauses.condition.isSome = condition ∧ clauses.update.isSome = update := by
  rw [Tree.body_header] at h
  have parts : DerivesEach (Tree.headerPattern init condition update) ts trees :=
    derives_spaced.mp h
  obtain ⟨_, first, rfl⟩ := (each_word (by decide)).mp parts
  obtain ⟨us, _, _, i, start, after, rfl, rfl, rfl, givesI, writtenI, soundI⟩ :=
    spells_option spells_forInit first
  obtain ⟨_, second, rfl⟩ := (each_word (by decide)).mp after
  obtain ⟨vs, _, _, c, test, behind, rfl, rfl, rfl, givesC, writtenC, soundC⟩ :=
    spells_option spells_logicalOr second
  obtain ⟨_, third, rfl⟩ := (each_word (by decide)).mp behind
  obtain ⟨ws, _, _, u, step, close, rfl, rfl, rfl, givesU, writtenU, soundU⟩ :=
    spells_option spells_forUpdate third
  obtain ⟨_, ⟨rfl, rfl⟩, rfl⟩ := (each_word (by decide)).mp close
  refine ⟨⟨start, test, step⟩, ?_, ⟨us, vs, ws, writtenI, writtenC, writtenU, by simp⟩, ?_,
    givesI.isSome_eq, givesC.isSome_eq, givesU.isSome_eq⟩
  · simpa using Tree.gives_clauses givesI givesC givesU
  · rw [ForClauses.isWellFormed, soundI, soundC, soundU]
    rfl

theorem spells_header {init condition update : Bool}
    (h : Derives (Tree.header init condition update).body ts trees) :
    (Tree.node (Tree.header init condition update) trees).Spells ForClauses.ofPhrase
      ForClauses.Written ForClauses.isWellFormed ts := by
  obtain ⟨clauses, gives, written, sound, -⟩ := header_clauses h
  exact ⟨clauses, gives, written, sound⟩

theorem spells_forHeader (h : Derives (call forHeader) ts trees) :
    ∃ t, trees = [t] ∧ t.isPart = true ∧
      t.Spells ForClauses.ofPhrase ForClauses.Written ForClauses.isWellFormed ts := by
  have one (init condition update : Bool)
      (h : Derives (call (Tree.header init condition update)) ts trees) :
      ∃ t, trees = [t] ∧ t.isPart = true ∧
        t.Spells ForClauses.ofPhrase ForClauses.Written ForClauses.isWellFormed ts := by
    obtain ⟨children, body, rfl⟩ := (derives_node (Tree.header_plain init condition update)).mp h
    exact ⟨_, rfl, Tree.header_isPart init condition update children, spells_header body⟩
  have alternatives : Derives (oneOf _) ts trees := (derives_group rfl).mp h
  simp only [oneOf, derives_choice] at alternatives
  obtain h | h | h | h | h | h | h | h := alternatives
  · exact one true true true h
  · exact one true true false h
  · exact one true false true h
  · exact one false true true h
  · exact one true false false h
  · exact one false true false h
  · exact one false false true h
  · exact one false false false h

end SyntaxTree
