import SyntaxTree.Program.Reading.Clause
import SyntaxTree.Proofs.Reading.Expr

/-!
# Reading clauses from trees

The constructs between expressions and statements, each from the trees of its
parts. A loop header has one tree for each choice of clauses that are there.
-/

namespace SyntaxTree.Tree

variable {α : Type} {read : Phrase → Except ShapeError α}
variable {r : Rule} {t : Tree} {ts : List Tree} {e : Expr} {text : Lexeme} {type : DataType}

theorem parts_of_all {p : Phrase} (h : p.tree = node r ts) (all : ∀ t ∈ ts, t.isPart = true) :
    p.parts.map (fun c => c.phrase.tree) = ts := by
  rw [Phrase.parts_of_node h, List.filter_eq_self]
  exact all

/-- Trees and what they give, one by one. -/
inductive GivesAll (read : Phrase → Except ShapeError α) : List Tree → List α → Prop
  | nil : GivesAll read [] []
  | cons {t : Tree} {ts : List Tree} {x : α} {xs : List α} (first : t.Gives read x)
      (others : GivesAll read ts xs) : GivesAll read (t :: ts) (x :: xs)

theorem GivesAll.mapM {ps : List Phrase} {xs : List α} (h : GivesAll read (ps.map Phrase.tree) xs) :
    ps.mapM read = .ok xs := by
  generalize same : ps.map Phrase.tree = ts at h
  induction h generalizing ps with
  | nil =>
    rw [List.map_eq_nil_iff.mp same]
    rfl
  | cons first _ ih =>
    obtain ⟨p, ps, rfl, tree, same⟩ := List.map_eq_cons_iff.mp same
    rw [List.mapM_cons, first p tree, ih same]
    rfl

theorem gives_declarator : (node .declarator [token .ident text]).Gives Declarator.ofPhrase
    ⟨String.ofList text, none⟩ := by
  intro p h
  obtain ⟨name, children, tree⟩ := List.map_eq_singleton_iff.mp (Phrase.of_node h).2
  rw [Declarator.ofPhrase, children]
  dsimp only
  rw [Phrase.content_of_token tree]

theorem gives_declarator_init (h : t.Gives Expr.ofPhrase e) :
    (node .declarator [token .ident text, t]).Gives Declarator.ofPhrase
      ⟨String.ofList text, some e⟩ := by
  intro p declarator
  obtain ⟨name, _, children, tree, same⟩ :=
    List.map_eq_cons_iff.mp (Phrase.of_node declarator).2
  obtain ⟨value, rfl, valueTree⟩ := List.map_eq_singleton_iff.mp same
  rw [Declarator.ofPhrase, children]
  dsimp only
  rw [Phrase.content_of_token tree, h _ valueTree]
  rfl

theorem gives_varDecl {declarators : List Declarator}
    (h : GivesAll Declarator.ofPhrase ts declarators) (nonempty : declarators ≠ []) :
    (node .varDecl (token r type.keyword.toList :: ts)).Gives VarDecl.ofPhrase
      ⟨type, declarators⟩ := by
  intro p decl
  obtain ⟨word, rest, children, tree, same⟩ := List.map_eq_cons_iff.mp (Phrase.of_node decl).2
  rw [VarDecl.ofPhrase, children]
  dsimp only
  rw [gives_type _ tree, GivesAll.mapM (same ▸ h)]
  show (if declarators.isEmpty then _ else _) = _
  rw [if_neg (by simpa using nonempty)]
  rfl

theorem add_arrayType {found : ArrayDecl.Found} {p : Phrase}
    (tree : p.tree = token .dataType type.keyword.toList) :
    found.add p = .ok { found with type := some type } := by
  rw [ArrayDecl.Found.add, (Phrase.of_token tree).1]
  dsimp only
  rw [gives_type _ tree]
  rfl

theorem add_arrayName {found : ArrayDecl.Found} {p : Phrase} (tree : p.tree = token .ident text) :
    found.add p = .ok { found with name := some (String.ofList text) } := by
  rw [ArrayDecl.Found.add, (Phrase.of_token tree).1, Phrase.content_of_token tree]

theorem add_dims {found : ArrayDecl.Found} {p : Phrase} {sizes : Dims}
    (h : (node .dims ts).Gives Dims.ofPhrase sizes) (tree : p.tree = node .dims ts) :
    found.add p = .ok { found with dims := some sizes } := by
  rw [ArrayDecl.Found.add, (Phrase.of_node tree).1]
  dsimp only
  rw [h _ tree]
  rfl

/-- The name of an array stands before or behind its dimensions. -/
theorem gives_arrayDecl {brackets : List Tree} {sizes : Dims}
    (h : (node .dims brackets).Gives Dims.ofPhrase sizes)
    (order : ts = [token .dataType type.keyword.toList, token .ident text, node .dims brackets] ∨
      ts = [token .dataType type.keyword.toList, node .dims brackets, token .ident text]) :
    (node .arrayDecl ts).Gives ArrayDecl.ofPhrase ⟨type, String.ofList text, sizes⟩ := by
  intro p decl
  have children := (Phrase.of_node decl).2
  have all : p.children.foldlM ArrayDecl.Found.add ⟨none, none, none⟩ =
      .ok ⟨some type, some (String.ofList text), some sizes⟩ := by
    rcases order with rfl | rfl
    · obtain ⟨a, _, same, first, rest⟩ := List.map_eq_cons_iff.mp children
      obtain ⟨b, _, rfl, second, rest⟩ := List.map_eq_cons_iff.mp rest
      obtain ⟨c, rfl, third⟩ := List.map_eq_singleton_iff.mp rest
      simp [same, add_arrayType first, add_arrayName second, add_dims h third, bind, Except.bind,
        pure, Except.pure]
    · obtain ⟨a, _, same, first, rest⟩ := List.map_eq_cons_iff.mp children
      obtain ⟨b, _, rfl, second, rest⟩ := List.map_eq_cons_iff.mp rest
      obtain ⟨c, rfl, third⟩ := List.map_eq_singleton_iff.mp rest
      simp [same, add_arrayType first, add_dims h second, add_arrayName third, bind, Except.bind,
        pure, Except.pure]
  rw [ArrayDecl.ofPhrase, all]
  rfl

theorem gives_initList {xs : List Expr} (h : GivesAll Expr.ofPhrase (t :: ts) (e :: xs)) :
    (node .initList (t :: ts)).Gives ArrayInitializer.ofPhrase (.list e xs) := by
  intro p list
  cases h with
  | cons first others =>
    obtain ⟨head, tail, children, tree, same⟩ := List.map_eq_cons_iff.mp (Phrase.of_node list).2
    rw [ArrayInitializer.ofPhrase, (Phrase.of_node list).1, children]
    dsimp only
    rw [first _ tree, GivesAll.mapM (same ▸ others)]
    rfl

theorem gives_initializer_new {dims : Dims}
    (h : (node .newExpr ts).Gives Expr.newOfPhrase (type, dims)) :
    (node .newExpr ts).Gives ArrayInitializer.ofPhrase (.new type dims) := by
  intro p new
  rw [ArrayInitializer.ofPhrase, (Phrase.of_node new).1]
  dsimp only
  rw [h _ new]
  rfl

theorem gives_arrayInit {decl value : Tree} {d : ArrayDecl} {init : ArrayInitializer}
    (hd : decl.Gives ArrayDecl.ofPhrase d) (part : decl.isPart = true)
    (hv : value.Gives ArrayInitializer.ofPhrase init) (part' : value.isPart = true) :
    (node .arrayInit [decl, node .arrayInitializer [value]]).Gives ArrayInit.ofPhrase
      ⟨d, init⟩ := by
  intro p h
  obtain ⟨declared, _, parts, declTree, rest⟩ :=
    List.map_eq_cons_iff.mp (parts_of_all h (by simpa using ⟨part, rfl⟩))
  obtain ⟨wrapped, rfl, wrappedTree⟩ := List.map_eq_singleton_iff.mp rest
  obtain ⟨inner, parts', valueTree⟩ := part_of_node wrappedTree part'
  rw [ArrayInit.ofPhrase, parts]
  dsimp only
  rw [hd _ declTree, parts']
  show (ArrayInitializer.ofPhrase inner.phrase >>= _) = _
  rw [hv _ valueTree]
  rfl

theorem gives_assignment {place value : Tree} {target : Expr} {op : AssignOp}
    (hp : place.Gives Expr.placeOfPhrase target) (part : place.isPart = true)
    (hv : value.Gives Expr.ofPhrase e) (part' : value.isPart = true) :
    (node .assignment [place, token .assignOp op.symbol.toList, value]).Gives Assignment.ofPhrase
      ⟨target, op, e⟩ := by
  intro p h
  obtain ⟨first, _, parts, placeTree, rest⟩ :=
    List.map_eq_cons_iff.mp (parts_of_all h (by simpa using ⟨part, rfl, part'⟩))
  obtain ⟨second, _, rfl, symbol, rest⟩ := List.map_eq_cons_iff.mp rest
  obtain ⟨third, rfl, valueTree⟩ := List.map_eq_singleton_iff.mp rest
  rw [Assignment.ofPhrase, parts]
  dsimp only
  rw [Phrase.operator_of_token (AssignOp.ofSymbol?_symbol op) symbol, hp _ placeTree,
    hv _ valueTree]
  rfl

theorem gives_forInit_declaration {decl : VarDecl}
    (h : (node .varDecl ts).Gives VarDecl.ofPhrase decl) :
    (node .forInitClause [node .varDecl ts]).Gives ForInit.ofPhrase (.declaration decl) := by
  intro p clause
  obtain ⟨inner, parts, tree⟩ := part_of_node clause rfl
  rw [ForInit.ofPhrase, parts]
  dsimp only
  rw [(Phrase.of_node tree).1]
  dsimp only
  rw [h _ tree]
  rfl

theorem gives_forInit_assignment {a : Assignment}
    (h : (node .assignment ts).Gives Assignment.ofPhrase a) :
    (node .forInitClause [node .assignment ts]).Gives ForInit.ofPhrase (.assignment a) := by
  intro p clause
  obtain ⟨inner, parts, tree⟩ := part_of_node clause rfl
  rw [ForInit.ofPhrase, parts]
  dsimp only
  rw [(Phrase.of_node tree).1]
  dsimp only
  rw [h _ tree]
  rfl

theorem gives_forUpdate_incDec {step : IncDec}
    (h : (node .incDec ts).Gives IncDec.ofPhrase step) :
    (node .forUpdateClause [node .incDec ts]).Gives ForUpdate.ofPhrase (.incDec step) := by
  intro p clause
  obtain ⟨inner, parts, tree⟩ := part_of_node clause rfl
  rw [ForUpdate.ofPhrase, parts]
  dsimp only
  rw [(Phrase.of_node tree).1]
  dsimp only
  rw [h _ tree]
  rfl

theorem gives_forUpdate_assignment {a : Assignment}
    (h : (node .assignment ts).Gives Assignment.ofPhrase a) :
    (node .forUpdateClause [node .assignment ts]).Gives ForUpdate.ofPhrase (.assignment a) := by
  intro p clause
  obtain ⟨inner, parts, tree⟩ := part_of_node clause rfl
  rw [ForUpdate.ofPhrase, parts]
  dsimp only
  rw [(Phrase.of_node tree).1]
  dsimp only
  rw [h _ tree]
  rfl

/-- The header for each choice of clauses that are there. -/
def header : Bool → Bool → Bool → Rule
  | false, false, false => .forEmpty
  | true, false, false => .forInit
  | false, true, false => .forCond
  | false, false, true => .forUpdate
  | true, true, false => .forInitCond
  | true, false, true => .forInitUpdate
  | false, true, true => .forCondUpdate
  | true, true, true => .forInitCondUpdate

/-- The pattern of the header for each choice of clauses. -/
def headerPattern (init condition update : Bool) : List Pattern :=
  .word "(" :: ((if init then [.call .forInitClause] else []) ++ .word ";" ::
    ((if condition then [.call .logicalOr] else []) ++ .word ";" ::
      ((if update then [.call .forUpdateClause] else []) ++ [.word ")"])))

theorem body_header (init condition update : Bool) :
    (header init condition update).body = .spaced (headerPattern init condition update) := by
  cases init <;> cases condition <;> cases update <;> rfl

theorem header_plain (init condition update : Bool) :
    (header init condition update).kind = .plain := by
  cases init <;> cases condition <;> cases update <;> rfl

theorem header_isPart (init condition update : Bool) (ts : List Tree) :
    (node (header init condition update) ts).isPart = true := by
  cases init <;> cases condition <;> cases update <;> rfl

/-- The tree of a clause that may be absent. -/
inductive GivesOption (read : Phrase → Except ShapeError α) : Option Tree → Option α → Prop
  | none : GivesOption read none none
  | some {t : Tree} {x : α} (given : t.Gives read x) (part : t.isPart = true) :
      GivesOption read (some t) (some x)

theorem GivesOption.isSome_eq {x : Option α} {t : Option Tree} (h : GivesOption read t x) :
    x.isSome = t.isSome := by
  cases h <;> rfl

theorem gives_clauses {init condition update : Option Tree} {clauses : ForClauses}
    (hi : GivesOption ForInit.ofPhrase init clauses.init)
    (hc : GivesOption Expr.ofPhrase condition clauses.condition)
    (hu : GivesOption ForUpdate.ofPhrase update clauses.update) :
    (node (header init.isSome condition.isSome update.isSome)
      (init.toList ++ condition.toList ++ update.toList)).Gives ForClauses.ofPhrase clauses := by
  obtain ⟨i, c, u⟩ := clauses
  rcases hi with _ | ⟨hi, pi⟩ <;> rcases hc with _ | ⟨hc, pc⟩ <;> rcases hu with _ | ⟨hu, pu⟩ <;>
    intro p h
  all_goals
    have rule := (Phrase.of_node h).1
    have parts := parts_of_all h (by simp [*])
    rw [ForClauses.ofPhrase, rule]
    simp only [header, Option.isSome, Option.toList, List.append_nil, List.nil_append,
      List.cons_append, List.map_eq_nil_iff, List.map_eq_cons_iff] at parts ⊢
  · rw [parts]
  · obtain ⟨a, _, parts, ta, rfl⟩ := parts
    rw [parts]
    dsimp only
    rw [hu _ ta]
    rfl
  · obtain ⟨a, _, parts, ta, rfl⟩ := parts
    rw [parts]
    dsimp only
    rw [hc _ ta]
    rfl
  · obtain ⟨a, _, parts, ta, b, _, rfl, tb, rfl⟩ := parts
    rw [parts]
    dsimp only
    rw [hc _ ta, hu _ tb]
    rfl
  · obtain ⟨a, _, parts, ta, rfl⟩ := parts
    rw [parts]
    dsimp only
    rw [hi _ ta]
    rfl
  · obtain ⟨a, _, parts, ta, b, _, rfl, tb, rfl⟩ := parts
    rw [parts]
    dsimp only
    rw [hi _ ta, hu _ tb]
    rfl
  · obtain ⟨a, _, parts, ta, b, _, rfl, tb, rfl⟩ := parts
    rw [parts]
    dsimp only
    rw [hi _ ta, hc _ tb]
    rfl
  · obtain ⟨a, _, parts, ta, b, _, rfl, tb, c, _, rfl, tc, rfl⟩ := parts
    rw [parts]
    dsimp only
    rw [hi _ ta, hc _ tb, hu _ tc]
    rfl

end SyntaxTree.Tree
