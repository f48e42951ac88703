import SyntaxTree.Program.Reading.Class
import SyntaxTree.Proofs.Reading.Clause

/-!
# Reading blocks and classes from trees

A construct that may hold blocks is read along a tally. What it gives does not
depend on the tally, so a tree gives the same construct on every one.
-/

namespace SyntaxTree

namespace TallyReader

variable {α β : Type}

/-- The reader returns a value, whatever the tally counts. -/
def Returns (reader : TallyReader α) (x : α) : Prop :=
  ∀ tally, ∃ after, reader.run.run tally = (.ok x, after)

theorem returns_pure (x : α) : Returns (pure x) x := fun tally => ⟨tally, rfl⟩

theorem returns_lift {result : Except ShapeError α} {x : α} (h : result = .ok x) :
    Returns (liftM result) x := by
  subst h
  exact fun tally => ⟨tally, rfl⟩

theorem Returns.bind {reader : TallyReader α} {next : α → TallyReader β} {x : α} {y : β}
    (h : reader.Returns x) (h' : (next x).Returns y) : Returns (reader >>= next) y := by
  intro tally
  obtain ⟨middle, first⟩ := h tally
  obtain ⟨after, second⟩ := h' middle
  refine ⟨after, ?_⟩
  rw [ExceptT.run_bind, StateT.run_bind, first]
  exact second

theorem Returns.scoped {inside : TallyReader α} {x : α} (h : inside.Returns x) :
    (TallyReader.scoped inside).Returns x := by
  intro tally
  obtain ⟨after, run⟩ := h tally.enter
  refine ⟨after.leave, ?_⟩
  show ((inside.run.run tally.enter).1, (inside.run.run tally.enter).2.leave) = _
  rw [run]

end TallyReader

namespace Tree

open TallyReader

variable {α : Type}

/-- Every phrase with this tree is read as the same construct, on every tally. -/
def GivesAlong (read : Phrase → TallyReader α) (t : Tree) (x : α) : Prop :=
  ∀ p : Phrase, p.tree = t → (read p).Returns x

/-- Trees and what they give, one by one. -/
inductive GivesAllAlong (read : Phrase → TallyReader α) : List Tree → List α → Prop
  | nil : GivesAllAlong read [] []
  | cons {t : Tree} {ts : List Tree} {x : α} {xs : List α} (first : t.GivesAlong read x)
      (others : GivesAllAlong read ts xs) : GivesAllAlong read (t :: ts) (x :: xs)

variable {r : Rule} {t : Tree} {ts : List Tree} {e : Expr} {text w w' : Lexeme} {type : DataType}

theorem gives_block {b : Block} (h : GivesAllAlong Stmt.ofPhrase ts b) :
    (node .block ts).GivesAlong Block.ofPhrase b := by
  intro p block
  have inner := Phrase.inner_of_node block
  rw [Block.ofPhrase]
  refine Returns.scoped ?_
  clear block
  generalize p.inner = parts at inner ⊢
  induction h generalizing parts with
  | nil =>
    rw [List.map_eq_nil_iff.mp inner]
    exact returns_pure []
  | cons first _ ih =>
    obtain ⟨stmt, rest, rfl, tree, same⟩ := List.map_eq_cons_iff.mp inner
    rw [List.mapM_cons]
    exact (first _ tree).bind ((ih rest same).bind (returns_pure _))

theorem gives_ifStmt {test body : Tree} {b : Block} (ht : test.Gives Expr.ofPhrase e)
    (part : test.isPart = true) (hb : body.GivesAlong Block.ofPhrase b)
    (part' : body.isPart = true) :
    (node .ifStmt [token .kwIf w, test, body]).GivesAlong Stmt.ofPhrase (.ifThen e b) := by
  intro p h
  have parts := Phrase.parts_of_node h
  rw [List.filter_cons_of_neg (by simp [isPart, rule, Rule.isFixedWord]),
    List.filter_cons_of_pos part, List.filter_cons_of_pos part', List.filter_nil] at parts
  obtain ⟨first, _, parts, testTree, rest⟩ := List.map_eq_cons_iff.mp parts
  obtain ⟨second, rfl, bodyTree⟩ := List.map_eq_singleton_iff.mp rest
  rw [Stmt.ofPhrase, (Phrase.of_node h).1]
  dsimp only
  rw [parts]
  exact (returns_lift (ht _ testTree)).bind ((hb _ bodyTree).bind (returns_pure _))

theorem gives_ifElseStmt {test body alternative : Tree} {b b' : Block}
    (ht : test.Gives Expr.ofPhrase e) (part : test.isPart = true)
    (hb : body.GivesAlong Block.ofPhrase b) (part' : body.isPart = true)
    (ha : alternative.GivesAlong Block.ofPhrase b') (part'' : alternative.isPart = true) :
    (node .ifElseStmt [token .kwIf w, test, body, token .kwElse w', alternative]).GivesAlong
      Stmt.ofPhrase (.ifElse e b b') := by
  intro p h
  have parts := Phrase.parts_of_node h
  rw [List.filter_cons_of_neg (by simp [isPart, rule, Rule.isFixedWord]),
    List.filter_cons_of_pos part, List.filter_cons_of_pos part',
    List.filter_cons_of_neg (by simp [isPart, rule, Rule.isFixedWord]),
    List.filter_cons_of_pos part'', List.filter_nil] at parts
  obtain ⟨first, _, parts, testTree, rest⟩ := List.map_eq_cons_iff.mp parts
  obtain ⟨second, _, rfl, bodyTree, rest⟩ := List.map_eq_cons_iff.mp rest
  obtain ⟨third, rfl, otherTree⟩ := List.map_eq_singleton_iff.mp rest
  rw [Stmt.ofPhrase, (Phrase.of_node h).1]
  dsimp only
  rw [parts]
  exact (returns_lift (ht _ testTree)).bind
    ((hb _ bodyTree).bind ((ha _ otherTree).bind (returns_pure _)))

theorem gives_forStmt {header body : Tree} {clauses : ForClauses} {b : Block}
    (hh : header.Gives ForClauses.ofPhrase clauses) (part : header.isPart = true)
    (hb : body.GivesAlong Block.ofPhrase b) (part' : body.isPart = true) :
    (node .forStmt [token .kwFor w, header, body]).GivesAlong Stmt.ofPhrase
      (.forLoop clauses b) := by
  intro p h
  have parts := Phrase.parts_of_node h
  rw [List.filter_cons_of_neg (by simp [isPart, rule, Rule.isFixedWord]),
    List.filter_cons_of_pos part, List.filter_cons_of_pos part', List.filter_nil] at parts
  obtain ⟨first, _, parts, headerTree, rest⟩ := List.map_eq_cons_iff.mp parts
  obtain ⟨second, rfl, bodyTree⟩ := List.map_eq_singleton_iff.mp rest
  rw [Stmt.ofPhrase, (Phrase.of_node h).1]
  dsimp only
  rw [parts]
  exact (returns_lift (hh _ headerTree)).bind ((hb _ bodyTree).bind (returns_pure _))

theorem gives_declaration_variable {decl : VarDecl}
    (h : (node .varDecl ts).Gives VarDecl.ofPhrase decl) :
    (node .declarationStmt [node .varDecl ts]).GivesAlong Stmt.ofPhrase
      (.declaration (.variable decl)) := by
  intro p stmt
  obtain ⟨inner, parts, tree⟩ := part_of_node stmt rfl
  rw [Stmt.ofPhrase, (Phrase.of_node stmt).1]
  dsimp only
  rw [parts]
  dsimp only
  rw [(Phrase.of_node tree).1]
  exact (returns_lift (h _ tree)).bind (returns_pure _)

theorem gives_declaration_array {decl : ArrayDecl}
    (h : (node .arrayDecl ts).Gives ArrayDecl.ofPhrase decl) :
    (node .declarationStmt [node .arrayDecl ts]).GivesAlong Stmt.ofPhrase
      (.declaration (.array decl)) := by
  intro p stmt
  obtain ⟨inner, parts, tree⟩ := part_of_node stmt rfl
  rw [Stmt.ofPhrase, (Phrase.of_node stmt).1]
  dsimp only
  rw [parts]
  dsimp only
  rw [(Phrase.of_node tree).1]
  exact (returns_lift (h _ tree)).bind (returns_pure _)

theorem gives_initialization_assign {a : Assignment}
    (h : (node .assignment ts).Gives Assignment.ofPhrase a) :
    (node .initializationStmt [node .assignment ts]).GivesAlong Stmt.ofPhrase
      (.initialization (.assign a)) := by
  intro p stmt
  obtain ⟨inner, parts, tree⟩ := part_of_node stmt rfl
  rw [Stmt.ofPhrase, (Phrase.of_node stmt).1]
  dsimp only
  rw [parts]
  dsimp only
  rw [(Phrase.of_node tree).1]
  exact (returns_lift (h _ tree)).bind (returns_pure _)

theorem gives_initialization_array {init : ArrayInit}
    (h : (node .arrayInit ts).Gives ArrayInit.ofPhrase init) :
    (node .initializationStmt [node .arrayInit ts]).GivesAlong Stmt.ofPhrase
      (.initialization (.array init)) := by
  intro p stmt
  obtain ⟨inner, parts, tree⟩ := part_of_node stmt rfl
  rw [Stmt.ofPhrase, (Phrase.of_node stmt).1]
  dsimp only
  rw [parts]
  dsimp only
  rw [(Phrase.of_node tree).1]
  exact (returns_lift (h _ tree)).bind (returns_pure _)

theorem gives_step {step : IncDec} (h : t.Gives IncDec.ofPhrase step) (part : t.isPart = true) :
    (node .expressionStmt [t]).GivesAlong Stmt.ofPhrase (.step step) := by
  intro p stmt
  obtain ⟨inner, parts, tree⟩ := part_of_node stmt part
  rw [Stmt.ofPhrase, (Phrase.of_node stmt).1]
  dsimp only
  rw [parts]
  exact (returns_lift (h _ tree)).bind (returns_pure _)

/-! ## The class and its method -/

theorem add_access {found : Modifier.Found} {p : Phrase} {access : Access}
    (tree : p.tree = token .access access.keyword.toList) :
    found.add p = .ok { found with access := some access } := by
  have known : Access.ofKeyword? access.keyword = some access := by
    cases access <;> decide
  rw [Modifier.Found.add, (Phrase.of_token tree).1, Phrase.content_of_token tree,
    String.ofList_toList, known]

theorem add_qualifier {found : Modifier.Found} {p : Phrase} {q : Qualifier}
    (tree : p.tree = token .qualifier q.keyword.toList) :
    found.add p = .ok { found with qualifier := some q } := by
  have known : Qualifier.ofKeyword? q.keyword = some q := by
    cases q <;> decide
  rw [Modifier.Found.add, (Phrase.of_token tree).1, Phrase.content_of_token tree,
    String.ofList_toList, known]

theorem gives_modifier {m : Modifier} (h : ts = token .access m.access.keyword.toList ::
      (m.qualifier.map fun q => token .qualifier q.keyword.toList).toList) :
    (node .modifier ts).Gives Modifier.ofPhrase m := by
  intro p modifier
  have children := (Phrase.of_node modifier).2
  have all : p.children.foldlM Modifier.Found.add ⟨none, none⟩ =
      .ok ⟨some m.access, m.qualifier⟩ := by
    obtain ⟨first, rest, same, tree, rest'⟩ := List.map_eq_cons_iff.mp (children.trans h)
    rw [same, List.foldlM_cons, add_access tree]
    cases found : m.qualifier with
    | none =>
      rw [found] at rest'
      rw [List.map_eq_nil_iff.mp rest']
      rfl
    | some q =>
      rw [found] at rest'
      obtain ⟨second, rfl, tree'⟩ := List.map_eq_singleton_iff.mp rest'
      show Modifier.Found.add _ second >>= _ = _
      rw [add_qualifier tree']
      rfl
  rw [Modifier.ofPhrase, all]
  rfl

theorem gives_returnType (part : (token r type.keyword.toList).isPart = true) :
    (node .returnType [token r type.keyword.toList]).Gives DataType.returnOfPhrase type := by
  intro p h
  obtain ⟨inner, parts, tree⟩ := part_of_node h part
  rw [DataType.returnOfPhrase, parts]
  exact gives_type _ tree

theorem add_parameterType {found : Parameter.Found} {p : Phrase}
    (tree : p.tree = token .dataType type.keyword.toList) :
    found.add p = .ok { found with type := some type } := by
  rw [Parameter.Found.add, (Phrase.of_token tree).1]
  dsimp only
  rw [gives_type _ tree]
  rfl

theorem add_parameterName {found : Parameter.Found} {p : Phrase}
    (tree : p.tree = token .ident text) :
    found.add p = .ok { found with name := some (String.ofList text) } := by
  rw [Parameter.Found.add, (Phrase.of_token tree).1, Phrase.content_of_token tree]

theorem add_arrayMarker {found : Parameter.Found} {p : Phrase}
    (tree : p.tree = node .arrayMarker ts) : found.add p = .ok { found with isArray := true } := by
  rw [Parameter.Found.add, (Phrase.of_node tree).1]

theorem gives_parameter {isArray : Bool} (marker : List Tree)
    (h : ts = token .dataType type.keyword.toList ::
      (if isArray then [node .arrayMarker marker] else []) ++ [token .ident text]) :
    (node .parameter ts).Gives Parameter.ofPhrase ⟨type, isArray, String.ofList text⟩ := by
  intro p parameter
  have children := (Phrase.of_node parameter).2.trans h
  have all : p.children.foldlM Parameter.Found.add ⟨none, false, none⟩ =
      .ok ⟨some type, isArray, some (String.ofList text)⟩ := by
    cases isArray with
    | false =>
      obtain ⟨a, _, same, first, rest⟩ := List.map_eq_cons_iff.mp children
      obtain ⟨b, rfl, second⟩ := List.map_eq_singleton_iff.mp rest
      simp [same, add_parameterType first, add_parameterName second, bind, Except.bind, pure,
        Except.pure]
    | true =>
      obtain ⟨a, _, same, first, rest⟩ := List.map_eq_cons_iff.mp children
      obtain ⟨b, _, rfl, second, rest⟩ := List.map_eq_cons_iff.mp rest
      obtain ⟨c, rfl, third⟩ := List.map_eq_singleton_iff.mp rest
      simp [same, add_parameterType first, add_arrayMarker second, add_parameterName third, bind,
        Except.bind, pure, Except.pure]
  rw [Parameter.ofPhrase, all]
  rfl

theorem gives_methodDecl {words type param body : Tree} {method : MethodDecl}
    (hm : words.Gives Modifier.ofPhrase method.modifier) (part : words.isPart = true)
    (ht : type.Gives DataType.returnOfPhrase method.returnType) (part' : type.isPart = true)
    (hp : param.Gives Parameter.ofPhrase method.parameter) (part'' : param.isPart = true)
    (hb : body.GivesAlong Block.ofPhrase method.body) (pb : body.isPart = true) :
    (node .methodDecl [words, type, token .kwMain w, param, body]).GivesAlong
      MethodDecl.ofPhrase method := by
  intro p h
  have parts := Phrase.parts_of_node h
  rw [List.filter_cons_of_pos part, List.filter_cons_of_pos part',
    List.filter_cons_of_neg (by simp [isPart, rule, Rule.isFixedWord]),
    List.filter_cons_of_pos part'', List.filter_cons_of_pos pb, List.filter_nil] at parts
  obtain ⟨a, _, parts, ta, rest⟩ := List.map_eq_cons_iff.mp parts
  obtain ⟨b, _, rfl, tb, rest⟩ := List.map_eq_cons_iff.mp rest
  obtain ⟨c, _, rfl, tc, rest⟩ := List.map_eq_cons_iff.mp rest
  obtain ⟨d, rfl, td⟩ := List.map_eq_singleton_iff.mp rest
  rw [MethodDecl.ofPhrase, parts]
  exact (returns_lift (hm _ ta)).bind ((returns_lift (ht _ tb)).bind
    ((returns_lift (hp _ tc)).bind ((hb _ td).bind (returns_pure _))))

theorem add_className {found : ClassDecl.Found} {p : Phrase}
    (tree : p.tree = token .ident text) :
    (found.add p).Returns { found with name := some (String.ofList text) } := by
  rw [ClassDecl.Found.add, (Phrase.of_token tree).1, Phrase.content_of_token tree]
  exact returns_pure _

theorem add_classModifier {found : ClassDecl.Found} {p : Phrase} {m : Modifier}
    (h : t.Gives Modifier.ofPhrase m) (modifier : t.rule = .modifier) (tree : p.tree = t) :
    (found.add p).Returns { found with modifier := some m } := by
  rw [ClassDecl.Found.add, ← Phrase.rule_tree, tree, modifier]
  exact (returns_lift (h _ tree)).bind (returns_pure _)

theorem add_method {found : ClassDecl.Found} {p : Phrase} {method : MethodDecl}
    (h : (node .methodDecl ts).GivesAlong MethodDecl.ofPhrase method)
    (tree : p.tree = node .methodDecl ts) :
    (found.add p).Returns { found with method := some method } := by
  rw [ClassDecl.Found.add, (Phrase.of_node tree).1]
  exact (h _ tree).bind (returns_pure _)

theorem gives_classDecl {m : Option Modifier} (words : Option Tree) {methodTrees : List Tree}
    {method : MethodDecl}
    (hm : GivesOption Modifier.ofPhrase words m) (modifier : ∀ t ∈ words, t.rule = .modifier)
    (hd : (node .methodDecl methodTrees).GivesAlong MethodDecl.ofPhrase method) :
    (node .classDecl (words.toList ++
      [token .kwClass w, token .ident text, node .methodDecl methodTrees])).GivesAlong
      ClassDecl.ofPhrase ⟨m, String.ofList text, method⟩ := by
  intro p h
  have parts := Phrase.parts_of_node h
  have all : ((p.parts.map Phrase.Child.phrase).foldlM ClassDecl.Found.add
      ⟨none, none, none⟩).Returns ⟨m, some (String.ofList text), some method⟩ := by
    cases hm with
    | none =>
      simp only [Option.toList, List.nil_append] at parts
      rw [List.filter_cons_of_neg (by simp [isPart, rule, Rule.isFixedWord])] at parts
      obtain ⟨a, _, parts, ta, rest⟩ := List.map_eq_cons_iff.mp parts
      obtain ⟨b, rfl, tb⟩ := List.map_eq_singleton_iff.mp rest
      rw [parts]
      exact (add_className ta).bind ((add_method hd tb).bind (returns_pure _))
    | some given part =>
      rename_i t m
      simp only [Option.toList, List.singleton_append] at parts
      rw [List.filter_cons_of_pos part,
        List.filter_cons_of_neg (by simp [isPart, rule, Rule.isFixedWord])] at parts
      obtain ⟨a, _, parts, ta, rest⟩ := List.map_eq_cons_iff.mp parts
      obtain ⟨b, _, rfl, tb, rest⟩ := List.map_eq_cons_iff.mp rest
      obtain ⟨c, rfl, tc⟩ := List.map_eq_singleton_iff.mp rest
      rw [parts]
      exact (add_classModifier given (modifier t rfl) ta).bind
        ((add_className tb).bind ((add_method hd tc).bind (returns_pure _)))
  rw [ClassDecl.ofPhrase]
  exact all.bind ((returns_lift rfl).bind ((returns_lift rfl).bind (returns_pure _)))

theorem gives_program {root : ClassDecl}
    (h : (node .classDecl ts).GivesAlong ClassDecl.ofPhrase root) (rest : List Tree) :
    (node .program (node .classDecl ts :: rest)).GivesAlong Program.ofPhrase ⟨root⟩ := by
  intro p program
  obtain ⟨first, others, children, tree, -⟩ :=
    List.map_eq_cons_iff.mp (Phrase.of_node program).2
  have found : p.children.find? (fun part => part.rule == .classDecl) = some first := by
    rw [children, List.find?_cons_of_pos]
    simp [(Phrase.of_node tree).1]
  rw [Program.ofPhrase, found]
  exact (h _ tree).bind (returns_pure _)

end Tree

end SyntaxTree
